import LatencyLog.Proofs.Record.WrittenLatency

/-! # Integers of any number of digits keep their order

An integer is read in one of three ways. Up to 64 bits it is its own sample. A longer one is the
product of the digits taken, rounded, and the power of ten of those left over. From `10 ^ 23` on
that power is no longer a binary64 number, and any product with it lies beyond 128 bits.

Either 20 or 19 digits are taken, so that a longer integer may come with a significand of fewer
digits. Digits are left over just where one more of them would pass `2 ^ 64`. Hence a significand
with digits left over is a tenth of `2 ^ 64` at least, and rounding keeps it so.

* `Json.Numeral.IsInteger.dropped_mono`: a greater integer has no fewer digits left over.
* `Json.Numeral.IsInteger.scaledSignificand_mono`: nor has it a lesser rounded significand, at its
  place.
* `Json.Numeral.ReadsAs`: the three ways, and `exists_readsAs`: there is no other.
* `Json.Numeral.ReadsAs.mono`: across any two of them the order is kept, up to the bound.
* `Outcome.ofLine_mono_integer`: a greater integer has no lesser sample.
-/

namespace LatencyLog

set_option autoImplicit false

open Binary64 Text

namespace Json

/-- The first digit left over would have taken the significand past its bound. -/
theorem le_withDigits_of_left {significand : Nat} {digits : List (Fin 10)}
    (left : (absorb significand digits).2 ≠ []) :
    2 ^ 64 * 10 ^ (absorb significand digits).2.length ≤ 10 * withDigits significand digits := by
  induction digits generalizing significand with
  | nil => exact absurd rfl left
  | cons d digits ih =>
    by_cases fits : significand * 10 + d.val < 2 ^ 64
    · rw [absorb_of_some (withDigit?_of_lt fits)] at left ⊢
      rw [withDigits_cons]
      exact ih left
    · have lower := (withDigits_bounds (significand * 10 + d.val) digits).1
      rw [absorb_of_none (withDigit?_of_ge fits), withDigits_cons]
      calc 2 ^ 64 * 10 ^ (digits.length + 1)
          = 10 * (2 ^ 64 * 10 ^ digits.length) := by ring
        _ ≤ 10 * ((significand * 10 + d.val) * 10 ^ digits.length) :=
          Nat.mul_le_mul_left _ (Nat.mul_le_mul_right _ (not_lt.mp fits))
        _ ≤ 10 * withDigits (significand * 10 + d.val) digits := Nat.mul_le_mul_left _ lower

namespace Numeral

variable {n m : Numeral}

/-! ## Digits of an integer -/

/-- Neither a point nor an exponent is written. -/
structure IsInteger (n : Numeral) : Prop where
  noPoint : n.fraction = []
  noPower : n.power = none

namespace IsInteger

theorem significand_bounds (h : n.IsInteger) :
    n.significand * 10 ^ n.dropped ≤ n.digits ∧
      n.digits < (n.significand + 1) * 10 ^ n.dropped := by
  obtain ⟨lower, upper, -⟩ := absorb_bounds n.lead n.whole
  rw [significand, digits_eq, h.noPoint]
  exact ⟨lower, upper⟩

theorem scale_eq (h : n.IsInteger) : n.scale = n.dropped := by
  rw [scale, places, h.noPoint]
  simp

theorem le_digits_of_dropped (h : n.IsInteger) (left : n.dropped ≠ 0) :
    2 ^ 64 * 10 ^ n.dropped ≤ 10 * n.digits := by
  rw [digits_eq, h.noPoint]
  exact le_withDigits_of_left fun none => left (congrArg List.length none)

/-- A greater integer has no fewer digits left over. -/
theorem dropped_mono (hn : n.IsInteger) (hm : m.IsInteger) (le : n.digits ≤ m.digits) :
    n.dropped ≤ m.dropped := by
  by_contra more
  rw [not_le] at more
  have wide := hn.le_digits_of_dropped (Nat.ne_zero_of_lt more)
  have power : 10 ^ (m.dropped + 1) ≤ 10 ^ n.dropped := Nat.pow_le_pow_right (by decide) more
  have small : m.digits < 2 ^ 64 * 10 ^ m.dropped :=
    hm.significand_bounds.2.trans_le (Nat.mul_le_mul_right _ m.significand_lt)
  rw [pow_succ] at power
  omega

theorem significand_mono (hn : n.IsInteger) (hm : m.IsInteger) (le : n.digits ≤ m.digits)
    (same : n.dropped = m.dropped) : n.significand ≤ m.significand := by
  have lower := hn.significand_bounds.1
  have upper := hm.significand_bounds.2
  rw [same] at lower
  exact Nat.le_of_lt_succ (Nat.lt_of_mul_lt_mul_right ((lower.trans le).trans_lt upper))

/-- With digits left over, the significand is a tenth of `2 ^ 64` at least. Cut off to an integer
this tenth is rounded up. -/
theorem le_absRat_of_dropped (h : n.IsInteger) (left : n.dropped ≠ 0) :
    2 ^ 64 ≤ 10 * (ofInt n.significand).absRat := by
  have least : 2 ^ 64 / 10 ≤ n.significand := by
    have room : 2 ^ 64 < 10 * (n.significand + 1) := by
      refine Nat.lt_of_mul_lt_mul_right (a := 10 ^ n.dropped) ?_
      have wide := h.le_digits_of_dropped left
      have upper := h.significand_bounds.2
      rw [Nat.mul_assoc]
      omega
    omega
  have tenth : (2 : ℚ) ^ 64 ≤ 10 * (ofInt (2 ^ 64 / 10 : Nat)).absRat := by
    have counted : 2 ^ 64 * unitsPerOne ≤ 10 * (ofInt (2 ^ 64 / 10 : Nat)).absUnits := by
      decide +kernel
    rw [Binary64.absRat, ← mul_div_assoc, le_div_iff₀ unitsPerOne_pos]
    generalize unitsPerOne = one, (ofInt (2 ^ 64 / 10 : Nat)).absUnits = count at counted ⊢
    exact_mod_cast counted
  exact tenth.trans (mul_le_mul_of_nonneg_left (absRat_ofInt_natCast_mono least) (by norm_num))

end IsInteger

/-! ## Rounded significands at their places -/

/-- The digits taken, rounded, at the place of the last of them. -/
def scaledSignificand (n : Numeral) : ℚ := (ofInt n.significand).absRat * 10 ^ n.dropped

theorem le_scaledSignificand_of_le {k : Nat} (fewer : k ≤ n.dropped) :
    (ofInt n.significand).absRat * 10 ^ k ≤ n.scaledSignificand :=
  mul_le_mul_of_nonneg_left (pow_le_pow_right₀ (by norm_num) fewer) (Binary64.absRat_nonneg _)

namespace IsInteger

/-- A greater integer has no lesser rounded significand at its place. With more digits left over, a
tenth of the significand's bound makes up for all that rounding does to the lesser one. -/
theorem scaledSignificand_mono (hn : n.IsInteger) (hm : m.IsInteger) (le : n.digits ≤ m.digits) :
    n.scaledSignificand ≤ m.scaledSignificand := by
  have power : (0 : ℚ) ≤ 10 ^ n.dropped := by positivity
  rcases (hn.dropped_mono hm le).lt_or_eq with less | same
  · calc n.scaledSignificand
        ≤ 2 ^ 64 * 10 ^ n.dropped :=
          mul_le_mul_of_nonneg_right (absRat_ofInt_natCast_le n.significand_lt) power
      _ ≤ 10 * (ofInt m.significand).absRat * 10 ^ n.dropped :=
          mul_le_mul_of_nonneg_right (hm.le_absRat_of_dropped (Nat.ne_zero_of_lt less)) power
      _ = (ofInt m.significand).absRat * 10 ^ (n.dropped + 1) := by ring
      _ ≤ m.scaledSignificand := le_scaledSignificand_of_le less
  · rw [scaledSignificand, scaledSignificand, ← same]
    have digits := absRat_ofInt_natCast_mono (hn.significand_mono hm le same)
    exact mul_le_mul_of_nonneg_right digits power

/-- Powers of two up to `2 ^ 64` are kept on the way to the rounded significand. -/
theorem le_scaledSignificand (h : n.IsInteger) {e : Nat} (small : e ≤ 64)
    (le : 2 ^ e ≤ n.digits) : 2 ^ e ≤ n.scaledSignificand := by
  by_cases none : n.dropped = 0
  · have nearest := isNearest_ofInt_natCast n.significand
    have value : (2 : ℚ) ^ (e : ℤ) ≤ n.significand := by
      rw [zpow_natCast, significand_of_dropped h.noPoint none]
      exact_mod_cast le
    rw [scaledSignificand, none, pow_zero, mul_one, ← zpow_natCast]
    exact nearest.zpow_le (by omega) (by omega) value
  · calc (2 : ℚ) ^ e ≤ 2 ^ 64 := pow_le_pow_right₀ (by norm_num) small
      _ ≤ 10 * (ofInt n.significand).absRat := h.le_absRat_of_dropped none
      _ = (ofInt n.significand).absRat * 10 ^ 1 := by rw [pow_one, mul_comm]
      _ ≤ n.scaledSignificand := le_scaledSignificand_of_le (Nat.one_le_iff_ne_zero.mpr none)

end IsInteger

/-! ## Three ways to be read -/

/-- The greatest size of an integer that is its own sample. -/
def exactLimit (n : Numeral) : Nat := if n.negative then 2 ^ 63 else 2 ^ 64 - 1

/-- Beyond the limit an integer reaches the power of two that the limit stays within. -/
theorem exists_power_exactLimit (n : Numeral) :
    ∃ e ≤ 64, n.exactLimit ≤ 2 ^ e ∧ ∀ d, n.exactLimit < d → 2 ^ e ≤ d := by
  rw [exactLimit]
  cases n.negative with
  | false => exact ⟨64, le_rfl, by simp, fun d less => Nat.le_of_pred_lt less⟩
  | true => exact ⟨63, by decide, le_rfl, fun d less => less.le⟩

theorem exactLimit_lt (n : Numeral) : n.exactLimit < 2 ^ 64 := by
  rw [exactLimit]
  split <;> omega

/-- An integer with digits left over is beyond the limit. -/
theorem IsInteger.exactLimit_lt_of_dropped (h : n.IsInteger) (left : n.dropped ≠ 0) :
    n.exactLimit < n.digits := by
  have wide := h.le_digits_of_dropped left
  have power := Nat.pow_le_pow_right (by decide : 0 < 10) (Nat.one_le_iff_ne_zero.mpr left)
  have limit := n.exactLimit_lt
  omega

/-- From `10 ^ 23` on the product lies beyond 128 bits, though neither of its factors is exact. -/
theorem IsInteger.le_absRat_mul_of_many (h : n.IsInteger) (many : 22 < n.dropped) :
    (2 : ℚ) ^ (127 : ℤ) ≤ (ofInt n.significand).absRat * (powerOfTen n.dropped).absRat := by
  have tenth := h.le_absRat_of_dropped (Nat.ne_zero_of_lt many)
  have taken : (2 : ℚ) ^ (60 : ℤ) ≤ (ofInt n.significand).absRat := by
    have less : (2 : ℚ) ^ (60 : ℤ) ≤ 2 ^ 64 / 10 := by norm_num
    linarith
  have power : (2 : ℚ) ^ (67 : ℤ) ≤ (powerOfTen n.dropped).absRat := by
    refine (isNearest_powerOfTen n.dropped).zpow_le (by decide) (by decide) ?_
    calc (2 : ℚ) ^ (67 : ℤ) ≤ 10 ^ 23 := by norm_num
      _ ≤ 10 ^ n.dropped := pow_le_pow_right₀ (by norm_num) many
  calc (2 : ℚ) ^ (127 : ℤ) = 2 ^ (60 : ℤ) * 2 ^ (67 : ℤ) := by norm_num
    _ ≤ (ofInt n.significand).absRat * (powerOfTen n.dropped).absRat :=
        mul_le_mul taken power (by positivity) (Binary64.absRat_nonneg _)

/-- The sample of an integer, without its sign and before it is kept within bounds. -/
inductive ReadsAs (n : Numeral) : ℤ → Prop
  | exact (small : n.digits ≤ n.exactLimit) : ReadsAs n n.digits
  | rounded {k : Nat} (large : n.exactLimit < n.digits) (few : n.dropped ≤ 22)
      (nearest : IsNearest n.scaledSignificand k) : ReadsAs n ⌊valueOf k⌋
  | beyond {i : ℤ} (many : 22 < n.dropped) (large : 2 ^ 127 ≤ i) : ReadsAs n i

theorem latency?_of_small (h : n.IsInteger) {x : Number} (denoted : n.number? = some x)
    (small : n.digits ≤ n.exactLimit) :
    latency? (.number x) = some (Int128.clamp (withSign n.negative n.digits)) := by
  have limit : n.negative = true → n.digits ≤ 2 ^ 63 := by
    intro sign
    rwa [exactLimit, if_pos sign] at small
  obtain ⟨y, sample, denoted', found, value⟩ :=
    exists_sample_of_integer h.noPoint h.noPower (small.trans_lt n.exactLimit_lt) limit
  obtain rfl := Option.some.inj (denoted.symm.trans denoted')
  rw [found, ← value, Int128.clamp_toInt]

/-- An integer below those of 64 bits, with all its digits taken. -/
theorem exists_readsAs_of_taken (h : n.IsInteger) {x : Number} (denoted : n.number? = some x)
    (large : n.exactLimit < n.digits) (none : n.dropped = 0) :
    ∃ i, latency? (.number x) = some (Int128.clamp (withSign n.negative i)) ∧ n.ReadsAs i := by
  have same := significand_of_dropped h.noPoint none
  have bound := n.significand_lt
  have sign : n.negative = true := by
    by_contra positive
    rw [exactLimit, if_neg positive, ← same] at large
    omega
  have outside : ¬(1 ≤ n.significand ∧ n.significand ≤ 2 ^ 63) := by
    rw [exactLimit, if_pos sign, ← same] at large
    omega
  rw [number?, h.noPower] at denoted
  obtain rfl := Option.some.inj ((if_pos ⟨h.noPoint, none⟩).symm.trans denoted)
  refine ⟨_, latency?_integer_of_outside sign outside,
    .rounded large (none.trans_le (Nat.zero_le _)) ?_⟩
  rw [scaledSignificand, none, pow_zero, mul_one]
  exact isNearest_valueOf (isNearest_ofInt _).le_infinity

/-- An integer with digits left over. -/
theorem exists_readsAs_of_dropped (h : n.IsInteger) {x : Number} (denoted : n.number? = some x)
    (left : n.dropped ≠ 0) :
    ∃ i, latency? (.number x) = some (Int128.clamp (withSign n.negative i)) ∧ n.ReadsAs i := by
  have number := number?_of_none h.noPower fun both => left both.2
  rw [h.scale_eq] at number
  obtain ⟨a, scaled, found⟩ := exists_scaled_of_real? number denoted
  have fits : n.dropped ≤ maxPower := by
    by_contra far
    have nothing := (eq_zero_of_multiplyUp (not_le.mp far) scaled).1
    have tenth := h.le_absRat_of_dropped left
    rw [nothing, Nat.cast_zero, absRat_ofInt_zero] at tenth
    exact absurd tenth (by norm_num)
  obtain ⟨rfl, -⟩ := eq_mul_of_multiplyUp fits scaled
  have nearest := isNearest_mul (ofInt n.significand) (powerOfTen n.dropped)
  refine ⟨_, found, ?_⟩
  rcases Nat.lt_or_ge 22 n.dropped with many | few
  · have wide := nearest.zpow_le (by decide) (by decide) (h.le_absRat_mul_of_many many)
    exact .beyond many (Int.le_floor.mpr (by exact_mod_cast wide))
  · rw [absRat_powerOfTen few] at nearest
    exact .rounded (h.exactLimit_lt_of_dropped left) few nearest

/-- Every integer that denotes a number is read in one of the three ways. -/
theorem exists_readsAs (h : n.IsInteger) {x : Number} (denoted : n.number? = some x) :
    ∃ i, latency? (.number x) = some (Int128.clamp (withSign n.negative i)) ∧ n.ReadsAs i := by
  rcases Nat.lt_or_ge n.exactLimit n.digits with large | small
  · by_cases none : n.dropped = 0
    · exact exists_readsAs_of_taken h denoted large none
    · exact exists_readsAs_of_dropped h denoted none
  · exact ⟨n.digits, latency?_of_small h denoted small, .exact small⟩

namespace ReadsAs

variable {i j : ℤ}

theorem nonneg (h : n.ReadsAs i) : 0 ≤ i := by
  cases h with
  | exact _ => exact Int.natCast_nonneg _
  | rounded _ _ _ => exact Int.floor_nonneg.mpr (valueOf_nonneg _)
  | beyond _ large => exact le_trans (by decide) large

theorem eq_of_small (h : n.ReadsAs i) (hn : n.IsInteger) (small : n.digits ≤ n.exactLimit) :
    i = n.digits := by
  cases h with
  | exact _ => rfl
  | rounded large _ _ => exact absurd small (not_le.mpr large)
  | beyond many _ =>
    exact absurd small (not_le.mpr (hn.exactLimit_lt_of_dropped (Nat.ne_zero_of_lt many)))

/-- Of two integers with one sign, the greater size is read as no lesser one, unless it is read as
one that is kept at the bound. -/
theorem mono (hi : n.ReadsAs i) (hj : m.ReadsAs j) (hn : n.IsInteger) (hm : m.IsInteger)
    (sign : n.negative = m.negative) (le : n.digits ≤ m.digits) : i ≤ j ∨ 2 ^ 127 ≤ j := by
  have limit : n.exactLimit = m.exactLimit := by rw [exactLimit, exactLimit, sign]
  cases hj with
  | exact small =>
    rw [hi.eq_of_small hn (limit ▸ le.trans small)]
    exact .inl (Int.ofNat_le.mpr le)
  | @rounded k large few nearest =>
    refine .inl ?_
    cases hi with
    | exact small =>
      obtain ⟨e, bits, within, reached⟩ := m.exists_power_exactLimit
      have rounded : (2 : ℚ) ^ (e : ℤ) ≤ valueOf k := by
        refine nearest.zpow_le (by omega) (by omega) ?_
        rw [zpow_natCast]
        exact hm.le_scaledSignificand bits (reached _ large)
      have size : n.digits ≤ 2 ^ e := small.trans (limit ▸ within)
      refine Int.le_floor.mpr (le_trans ?_ rounded)
      rw [zpow_natCast]
      exact_mod_cast size
    | rounded _ _ nearest' =>
      have order := nearest'.mono nearest (hn.scaledSignificand_mono hm le)
      exact Int.floor_le_floor (valueOf_strictMono.monotone order)
    | beyond many _ =>
      have fewer := hn.dropped_mono hm le
      omega
  | beyond _ large => exact .inr large

/-- The order of integers with signs is that of their sizes, or the one against it, or they have
zero between them. -/
theorem clamp_mono (hi : n.ReadsAs i) (hj : m.ReadsAs j) (hn : n.IsInteger) (hm : m.IsInteger)
    (le : withSign n.negative n.digits ≤ withSign m.negative m.digits) :
    (Int128.clamp (withSign n.negative i)).toInt ≤
      (Int128.clamp (withSign m.negative j)).toInt := by
  have nonneg := hi.nonneg
  have nonneg' := hj.nonneg
  have limit : ∀ k : Numeral, k.digits = 0 → k.digits ≤ k.exactLimit := by
    intro k zero
    omega
  rw [Int128.toInt_clamp, Int128.toInt_clamp]
  cases sign : n.negative with
  | false =>
    cases sign' : m.negative with
    | false =>
      rw [sign, sign'] at le
      have order := hi.mono hj hn hm (sign.trans sign'.symm) (Int.ofNat_le.mp le)
      simp only [withSign, Bool.false_eq_true, if_false]
      omega
    | true =>
      simp only [sign, sign', withSign, Bool.false_eq_true, if_false, if_true] at le ⊢
      have none := hi.eq_of_small hn (limit n (by omega))
      have none' := hj.eq_of_small hm (limit m (by omega))
      omega
  | true =>
    cases sign' : m.negative with
    | false =>
      simp only [withSign, Bool.false_eq_true, if_false, if_true]
      omega
    | true =>
      simp only [sign, sign', withSign, if_true] at le ⊢
      have order := hj.mono hi hm hn (sign'.trans sign.symm) (by omega)
      omega

end ReadsAs

/-! ## Printed integers -/

/-- Every integer is printed as a numeral. -/
theorem exists_integer_toString (i : ℤ) :
    ∃ n : Numeral, n.IsInteger ∧ n.text = (toString i).toList ∧
      withSign n.negative n.digits = i := by
  obtain ⟨digits, some, written, value⟩ := exists_digits_toDigits i.natAbs
  obtain ⟨lead, whole, rfl⟩ := List.exists_cons_of_ne_nil some
  have alone : lead = 0 → whole = [] := by
    rintro rfl
    rcases Nat.eq_zero_or_pos i.natAbs with zero | positive
    · rw [zero] at written
      exact (List.map_eq_nil_iff.mp (List.cons.inj written).2.symm)
    · obtain ⟨c, rest, printed, nonzero⟩ := exists_toDigits_eq_cons positive
      rw [printed] at written
      exact absurd (List.cons.inj written).1 nonzero
  refine ⟨⟨decide (i < 0), lead, whole, alone, [], none⟩, ⟨rfl, rfl⟩, ?_, ?_⟩
  · rw [toList_toString, written]
    simp [text, tail, fractionText, powerText]
  · rw [digits, List.append_nil, value, withSign]
    simp only [decide_eq_true_eq]
    split <;> omega

end Numeral

end Json

namespace Outcome

open Json

/-! ## Lines -/

/-- The last latency of the line is the integer, written without a point and an exponent. -/
def WritesInteger (line : String) (i : ℤ) : Prop :=
  ∃ (t : Tree .item) (n : Numeral), t.text = line.toList ∧ t.LastLatency (.number n) ∧
    n.IsInteger ∧ withSign n.negative n.digits = i

/-- A record of nothing but a printed integer. -/
theorem writesInteger_of_printed {line : String} {i : ℤ}
    (h : line.toList = recordText (toString i).toList) : WritesInteger line i := by
  obtain ⟨n, integer, written, value⟩ := Numeral.exists_integer_toString i
  obtain ⟨t, key, derived, latency, -⟩ := exists_record (.number n)
  rw [← written] at h
  exact ⟨t, n, derived.trans h.symm, latency, integer, value⟩

/-- The sample of an integer is read in one of the three ways, and kept within bounds. -/
theorem exists_sample_of_writesInteger {line : String} {i : ℤ} (written : WritesInteger line i)
    (formed : ∀ detail, ofLine line ≠ .skipped (.malformed detail)) :
    ∃ (n : Numeral) (j : ℤ), n.IsInteger ∧ withSign n.negative n.digits = i ∧ n.ReadsAs j ∧
      ofLine line = .sample (Int128.clamp (withSign n.negative j)) := by
  obtain ⟨t, n, derived, latency, integer, value⟩ := written
  have within := within_of_formed derived latency formed
  obtain ⟨x, denoted⟩ := Option.isSome_iff_exists.mp (within.inRange n latency.mem_numerals)
  obtain ⟨j, found, reads⟩ := Numeral.exists_readsAs integer denoted
  exact ⟨n, j, integer, value, reads, ofLine_of_numeral derived within latency denoted found⟩

/-- **A greater integer has no lesser sample**, however many digits either of them has: of two
records that are not malformed, the one with the greater integer for its last latency has a sample
that is no less. -/
theorem ofLine_mono_integer {line other : String} {v w : ℤ} (written : WritesInteger line v)
    (written' : WritesInteger other w) (le : v ≤ w)
    (formed : ∀ detail, ofLine line ≠ .skipped (.malformed detail))
    (formed' : ∀ detail, ofLine other ≠ .skipped (.malformed detail)) :
    ∃ a b, ofLine line = .sample a ∧ ofLine other = .sample b ∧ a.toInt ≤ b.toInt := by
  obtain ⟨n, i, hn, rfl, reads, sampled⟩ := exists_sample_of_writesInteger written formed
  obtain ⟨m, j, hm, rfl, reads', sampled'⟩ := exists_sample_of_writesInteger written' formed'
  exact ⟨_, _, sampled, sampled', reads.clamp_mono reads' hn hm le⟩

/-- The last integer with twenty digits taken and one left over, and the first with nineteen taken
and two left over. -/
theorem ofLine_mono_where_fewer_digits_are_taken :
    let line := "\x7b\"AverageLatency\":184467440737095516159\x7d"
    let other := "\x7b\"AverageLatency\":184467440737095516160\x7d"
    WritesInteger line 184467440737095516159 ∧ WritesInteger other 184467440737095516160 ∧
      ∃ a b, ofLine line = .sample a ∧ ofLine other = .sample b ∧ a.toInt ≤ b.toInt := by
  intro line other
  have written : WritesInteger line 184467440737095516159 :=
    writesInteger_of_printed (by decide +kernel)
  have written' : WritesInteger other 184467440737095516160 :=
    writesInteger_of_printed (by decide +kernel)
  have sampled : ofLine line = .sample (Int128.clamp 184467440737095516160) := by decide +kernel
  have sampled' : ofLine other = .sample (Int128.clamp 184467440737095516160) := by decide +kernel
  refine ⟨written, written', ofLine_mono_integer written written' (by decide) ?_ ?_⟩
  · intro detail
    rw [sampled]
    nofun
  · intro detail
    rw [sampled']
    nofun

end Outcome

end LatencyLog
