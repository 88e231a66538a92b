import LatencyLog.Proofs.Average.Neighbours

/-! # The average is monotone

Two runs over samples of which each is at most its counterpart keep their sums in this order,
wherever one of them is kept at a bound and the other is not. Rounding the sums keeps the order, and
so does dividing them by the one count.

* `Binary64.IsRounding.mono`: a greater number is not rounded to a lesser one.
* `Tally.AtMost`: a tally whose sum is at most another one's, of as many samples.
* `Tally.AtMost.push`, `Tally.AtMost.extend`: one step and a whole run.
* `Tally.isRounding_mean`: the average as the quotient of the rounded sum and the rounded count.
* `Average.toRat_ofSamples_mono`: greater samples have no lesser average.
-/

namespace LatencyLog

set_option autoImplicit false

/-! ## Rounding -/

namespace Binary64

/-- A greater number is not rounded to a lesser one. -/
theorem IsRounding.mono {q q' : ℚ} {v w : Binary64} (h : IsRounding q v) (h' : IsRounding q' w)
    (le : q ≤ q') : v.toRat ≤ w.toRat := by
  have upward := valueOf_strictMono.monotone
  rcases lt_or_ge q 0 with negative | nonneg
  · rw [h.toRat_of_neg negative]
    rcases lt_or_ge q' 0 with negative' | nonneg'
    · have size : |q'| ≤ |q| := by
        rw [abs_of_neg negative, abs_of_neg negative']
        exact neg_le_neg le
      rw [h'.toRat_of_neg negative']
      exact neg_le_neg (upward (h'.nearest.mono h.nearest size))
    · rw [h'.toRat_of_nonneg nonneg']
      exact (neg_nonpos_of_nonneg (valueOf_nonneg _)).trans (valueOf_nonneg _)
  · have size : |q| ≤ |q'| := by
      rw [abs_of_nonneg nonneg, abs_of_nonneg (nonneg.trans le)]
      exact le
    rw [h.toRat_of_nonneg nonneg, h'.toRat_of_nonneg (nonneg.trans le)]
    exact upward (h.nearest.mono h'.nearest size)

theorem isRounding_ofInt (i : ℤ) : IsRounding i (ofInt i) :=
  ⟨decide_eq_decide.mpr Int.cast_lt_zero.symm, isNearest_ofInt i⟩

theorem abs_toRat (v : Binary64) : |v.toRat| = v.absRat := by
  rw [toRat]
  split
  · rw [abs_neg, abs_of_nonneg v.absRat_nonneg]
  · exact abs_of_nonneg v.absRat_nonneg

theorem toRat_ofInt_lt_zero_iff (i : ℤ) : (ofInt i).toRat < 0 ↔ i < 0 := by
  constructor
  · intro less
    by_contra nonneg
    have zero := (isRounding_ofInt 0).mono (isRounding_ofInt i) (by exact_mod_cast not_lt.mp nonneg)
    have nothing : (ofInt 0).toRat = 0 := absRat_ofInt_zero
    linarith
  · intro negative
    have one := one_le_absRat_ofInt negative.ne
    rw [toRat, negative_ofInt, if_pos (decide_eq_true negative)]
    linarith

end Binary64

open Binary64

/-! ## Sums -/

theorem Int128.add_mono {a b c d : Int128} (first : a.toInt ≤ b.toInt)
    (second : c.toInt ≤ d.toInt) : (a.add c).toInt ≤ (b.add d).toInt := by
  rw [Int128.toInt_add, Int128.toInt_add]
  omega

namespace Tally

/-- As many samples, with a sum that is at most the other one. -/
structure AtMost (t u : Tally) : Prop where
  count : t.count = u.count
  sum : t.sum.toInt ≤ u.sum.toInt

variable {t u : Tally}

theorem AtMost.push (h : AtMost t u) {x y : Int128} (le : x.toInt ≤ y.toInt) :
    AtMost (t.push x) (u.push y) :=
  ⟨congrArg (· + 1) h.count, Int128.add_mono h.sum le⟩

theorem AtMost.extend {xs ys : List Int128}
    (pairs : List.Forall₂ (fun x y => x.toInt ≤ y.toInt) xs ys) (h : AtMost t u) :
    AtMost (t.extend xs) (u.extend ys) := by
  induction pairs generalizing t u with
  | nil => exact h
  | cons le _ ih => exact ih (h.push le)

/-! ## Averages -/

theorem toRat_count_pos (some : t.count ≠ 0) : 0 < (ofInt t.count).toRat := by
  have one := one_le_absRat_ofInt (i := t.count) (by omega)
  have nonneg : ¬((t.count : ℤ) < 0) := by omega
  rw [toRat, negative_ofInt, decide_eq_false nonneg, if_neg Bool.false_ne_true]
  linarith

/-- The average is the quotient of the rounded sum and the rounded count, rounded. -/
theorem isRounding_mean (some : t.count ≠ 0) :
    IsRounding ((ofInt t.sum.toInt).toRat / (ofInt t.count).toRat) t.mean := by
  constructor
  · rw [negative_mean]
    refine decide_eq_decide.mpr ?_
    rw [div_lt_iff₀ (toRat_count_pos some), zero_mul, toRat_ofInt_lt_zero_iff]
  · rw [abs_div, abs_toRat, abs_toRat]
    exact isNearest_mean some

theorem AtMost.toRat_mean_le (h : AtMost t u) (some : t.count ≠ 0) :
    t.mean.toRat ≤ u.mean.toRat := by
  refine (isRounding_mean some).mono (isRounding_mean (h.count ▸ some)) ?_
  rw [← h.count]
  refine div_le_div_of_nonneg_right ?_ (toRat_count_pos some).le
  exact (isRounding_ofInt _).mono (isRounding_ofInt _) (by exact_mod_cast h.sum)

end Tally

namespace Average

theorem ofSamples_eq_mean {xs : List Int128} (some : xs ≠ []) :
    (ofSamples xs).toBinary64 = (Tally.empty.extend xs).mean ∧
      (Tally.empty.extend xs).count ≠ 0 := by
  have counted : (Tally.empty.extend xs).count ≠ 0 := by
    rw [Tally.count_empty_extend]
    exact (List.length_pos_of_ne_nil some).ne'
  rw [ofSamples, Tally.average_eq_mean counted]
  exact ⟨rfl, counted⟩

theorem isFinite_ofSamples {xs : List Int128} (some : xs ≠ []) (few : xs.length < 2 ^ 64) :
    (ofSamples xs).toBinary64.isFinite = true := by
  obtain ⟨value, counted⟩ := ofSamples_eq_mean some
  rw [value]
  refine decide_eq_true (Tally.magnitude_mean_lt counted ?_)
  rwa [Tally.count_empty_extend]

/-- **Greater samples have no lesser average.** Of as many samples, each of which is at most its
counterpart, the average is at most that of the counterparts, and both are finite. -/
theorem toRat_ofSamples_mono {xs ys : List Int128} (some : xs ≠ []) (few : xs.length < 2 ^ 64)
    (length : xs.length = ys.length)
    (le : ∀ i (hx : i < xs.length) (hy : i < ys.length), xs[i].toInt ≤ ys[i].toInt) :
    (ofSamples xs).toBinary64.isFinite = true ∧ (ofSamples ys).toBinary64.isFinite = true ∧
      (ofSamples xs).toBinary64.toRat ≤ (ofSamples ys).toBinary64.toRat := by
  have some' : ys ≠ [] := by
    rw [← List.length_pos_iff, ← length]
    exact List.length_pos_of_ne_nil some
  have pairs : List.Forall₂ (fun x y : Int128 => x.toInt ≤ y.toInt) xs ys :=
    List.forall₂_iff_get.mpr ⟨length, le⟩
  have order : Tally.AtMost (Tally.empty.extend xs) (Tally.empty.extend ys) :=
    Tally.AtMost.extend pairs ⟨rfl, le_rfl⟩
  obtain ⟨value, counted⟩ := ofSamples_eq_mean some
  refine ⟨isFinite_ofSamples some few, isFinite_ofSamples some' (length ▸ few), ?_⟩
  rw [value, (ofSamples_eq_mean some').1]
  exact order.toRat_mean_le counted

/-- One sum is kept at the lower bound from the second sample on, the other one at the upper bound
at the third. -/
theorem toRat_ofSamples_mono_of_both_bounds :
    let xs := [Int128.clamp (-2 ^ 127), Int128.clamp (-1), Int128.clamp 1]
    let ys := [Int128.clamp (2 ^ 127 - 1), Int128.clamp (-1), Int128.clamp 2]
    (∀ i (_ : i < xs.length) (_ : i < ys.length), xs[i].toInt ≤ ys[i].toInt) ∧
      (ofSamples xs).toBinary64.toRat ≤ (ofSamples ys).toBinary64.toRat := by
  intro xs ys
  have le : ∀ i (_ : i < xs.length) (_ : i < ys.length), xs[i].toInt ≤ ys[i].toInt := by decide
  obtain ⟨-, -, ordered⟩ :=
    @toRat_ofSamples_mono xs ys (by decide) (by decide) rfl le
  exact ⟨le, ordered⟩

end Average

end LatencyLog
