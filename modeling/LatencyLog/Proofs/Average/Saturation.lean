import LatencyLog.Average
import Mathlib.Algebra.Order.BigOperators.Group.List
import Mathlib.Algebra.Ring.Int.Defs
import Mathlib.Data.List.Induction

/-! # What the saturating sum holds

The sum of a tally stays at a bound that a sample would carry it past. As long as no later sample
leads back from there, it is the exact total, kept within the bounds once.

* `total`: the exact total of samples.
* `StaysBeyond`: once the exact total is beyond a bound, no sample leads back.
* `Tally.sum_extend_eq_clamp`: the sum of such samples.
* `TotalsWithin`, `Tally.sum_prefix_eq_total_iff`: when the sum is exact all the way.
* `Tally.extend_perm`: such samples leave the same tally in any order of this kind.
-/

namespace LatencyLog

set_option autoImplicit false

/-! ## Exact totals -/

/-- The exact total of samples. -/
def total (samples : List Int128) : Int := (samples.map Int128.toInt).sum

theorem total_append (xs ys : List Int128) : total (xs ++ ys) = total xs + total ys := by
  simp [total]

theorem total_singleton (x : Int128) : total [x] = x.toInt := by
  simp [total]

theorem total_perm {xs ys : List Int128} (h : xs.Perm ys) : total xs = total ys :=
  (h.map Int128.toInt).sum_eq

/-- No sample leads the exact total of those before it back from beyond a bound. -/
def StaysBeyond (samples : List Int128) : Prop :=
  ∀ before x, before ++ [x] <+: samples →
    (2 ^ 127 - 1 < total before → 0 ≤ x.toInt) ∧ (total before < -2 ^ 127 → x.toInt ≤ 0)

variable {samples : List Int128}

theorem StaysBeyond.dropLast {x : Int128} (h : StaysBeyond (samples ++ [x])) :
    StaysBeyond samples := by
  intro before y begins
  exact h before y (begins.trans (List.prefix_append _ _))

/-- Every running total lies within the bounds. -/
def TotalsWithin (samples : List Int128) : Prop :=
  ∀ before, before <+: samples → -2 ^ 127 ≤ total before ∧ total before ≤ 2 ^ 127 - 1

theorem TotalsWithin.of_prefix {before : List Int128} (h : TotalsWithin samples)
    (begins : before <+: samples) : TotalsWithin before :=
  fun first later => h first (later.trans begins)

theorem TotalsWithin.staysBeyond (h : TotalsWithin samples) : StaysBeyond samples := by
  intro before x begins
  have within := h before ((List.prefix_append _ _).trans begins)
  omega

theorem total_nonneg (h : ∀ x ∈ samples, 0 ≤ x.toInt) : 0 ≤ total samples := by
  apply List.sum_nonneg
  simpa using h

theorem total_nonpos (h : ∀ x ∈ samples, x.toInt ≤ 0) : total samples ≤ 0 := by
  have bounded : ∀ i ∈ samples.map Int128.toInt, i ≤ 0 := by simpa using h
  simpa [total] using List.sum_le_card_nsmul _ 0 bounded

theorem staysBeyond_of_nonneg (h : ∀ x ∈ samples, 0 ≤ x.toInt) : StaysBeyond samples := by
  intro before x begins
  have next : 0 ≤ x.toInt := h x (begins.subset (by simp))
  have held : 0 ≤ total before :=
    total_nonneg fun y member => h y (begins.subset (List.mem_append_left _ member))
  omega

theorem staysBeyond_of_nonpos (h : ∀ x ∈ samples, x.toInt ≤ 0) : StaysBeyond samples := by
  intro before x begins
  have next : x.toInt ≤ 0 := h x (begins.subset (by simp))
  have held : total before ≤ 0 :=
    total_nonpos fun y member => h y (begins.subset (List.mem_append_left _ member))
  omega

/-! ## Saturating sums -/

namespace Tally

theorem sum_push (t : Tally) (x : Int128) : (t.push x).sum = t.sum.add x := rfl

theorem extend_concat (t : Tally) (x : Int128) :
    t.extend (samples ++ [x]) = (t.extend samples).push x := by
  rw [extend_append]
  rfl

theorem sum_extend_eq_clamp (h : StaysBeyond samples) :
    (empty.extend samples).sum = Int128.clamp (total samples) := by
  induction samples using List.reverseRecOn with
  | nil => rfl
  | append_singleton samples x ih =>
    obtain ⟨above, below⟩ := h samples x List.prefix_rfl
    -- Where the total was beyond a bound, the sample leads on from there, and the sum stays.
    rw [extend_concat, sum_push, ih h.dropLast, total_append, total_singleton]
    apply Int128.ext_toInt
    rw [Int128.toInt_add, Int128.toInt_clamp, Int128.toInt_clamp]
    omega

theorem sum_extend_eq_total (h : TotalsWithin samples) :
    (empty.extend samples).sum.toInt = total samples := by
  obtain ⟨lower, upper⟩ := h samples List.prefix_rfl
  rw [sum_extend_eq_clamp h.staysBeyond, Int128.toInt_clamp_of_mem lower upper]

/-- The sum is the exact total after each sample just if every running total lies within the
bounds. -/
theorem sum_prefix_eq_total_iff :
    (∀ before, before <+: samples → (empty.extend before).sum.toInt = total before) ↔
      TotalsWithin samples := by
  constructor
  · intro exact_ before begins
    rw [← exact_ before begins]
    exact ⟨Int128.minValue_le _, Int128.le_maxValue _⟩
  · intro within before begins
    exact sum_extend_eq_total (within.of_prefix begins)

theorem count_empty_extend (samples : List Int128) :
    (empty.extend samples).count = samples.length := by
  rw [count_extend]
  exact Nat.zero_add _

/-- Samples of which none leads back leave the same tally in any order of this kind. -/
theorem extend_perm {others : List Int128} (perm : samples.Perm others) (h : StaysBeyond samples)
    (h' : StaysBeyond others) : empty.extend samples = empty.extend others := by
  have sum : (empty.extend samples).sum = (empty.extend others).sum := by
    rw [sum_extend_eq_clamp h, sum_extend_eq_clamp h', total_perm perm]
  have count : (empty.extend samples).count = (empty.extend others).count := by
    rw [count_empty_extend, count_empty_extend, perm.length_eq]
  generalize empty.extend samples = t at sum count
  generalize empty.extend others = u at sum count
  cases t
  cases u
  simp only [mk.injEq]
  exact ⟨sum, count⟩

end Tally

/-! ## Averages -/

theorem average_ofSamples_perm {xs ys : List Int128} (perm : xs.Perm ys) (hx : StaysBeyond xs)
    (hy : StaysBeyond ys) : Average.ofSamples xs = Average.ofSamples ys :=
  congrArg Tally.average (Tally.extend_perm perm hx hy)

end LatencyLog
