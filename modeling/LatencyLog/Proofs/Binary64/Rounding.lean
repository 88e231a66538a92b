import LatencyLog.Proofs.Binary64.Magnitudes
import Mathlib.Tactic.Linarith

/-! # Rounding to the nearest magnitude

* `Binary64.IsNearest`: no magnitude has a value nearer to a number, and where another one is as
  near, this one is even. Infinity stands at `2 ^ 1024`.
* `Binary64.isNearest_iff`: it is enough to look at the two neighbours.
* `Binary64.IsNearest.mono`, `Binary64.IsNearest.unique`: a greater number has no lesser nearest
  magnitude, and each number has one.
* `Binary64.IsNearest.of_between`: the numbers that a magnitude is nearest to have no gap.
* `Binary64.isNearest_nearest`: `nearest` finds it.
-/

namespace LatencyLog.Binary64

set_option autoImplicit false

/-- The magnitude `m` is that of the number nearest to `q`, a tie going to the even one. -/
structure IsNearest (q : ℚ) (m : Nat) : Prop where
  le_infinity : m ≤ infinity
  near : ∀ n ≤ infinity, |q - valueOf m| ≤ |q - valueOf n|
  even : ∀ n ≤ infinity, n ≠ m → |q - valueOf m| = |q - valueOf n| → m % 2 = 0

/-! ## Neighbours -/

variable {q q' : ℚ} {m n : Nat}

theorem abs_sub_le_iff_of_lt {a b : ℚ} (h : a < b) : |q - a| ≤ |q - b| ↔ 2 * q ≤ a + b := by
  rw [← sq_le_sq]
  constructor
  · intro squares
    nlinarith
  · intro half
    nlinarith

theorem abs_sub_ge_iff_of_lt {a b : ℚ} (h : a < b) : |q - b| ≤ |q - a| ↔ a + b ≤ 2 * q := by
  rw [← sq_le_sq]
  constructor
  · intro squares
    nlinarith
  · intro half
    nlinarith

theorem abs_sub_eq_iff_of_lt {a b : ℚ} (h : a < b) : |q - a| = |q - b| ↔ 2 * q = a + b := by
  rw [le_antisymm_iff, abs_sub_le_iff_of_lt h, abs_sub_ge_iff_of_lt h, ← le_antisymm_iff]

/-- The number lies on this side of halfway to the next magnitude below, or the tie is even. -/
def AboveHalfway (q : ℚ) (m : Nat) : Prop :=
  ∀ n, m = n + 1 → valueOf n + valueOf m ≤ 2 * q ∧ (2 * q = valueOf n + valueOf m → m % 2 = 0)

/-- The number lies on this side of halfway to the next magnitude above, or the tie is even. -/
def BelowHalfway (q : ℚ) (m : Nat) : Prop :=
  m < infinity →
    2 * q ≤ valueOf m + valueOf (m + 1) ∧ (2 * q = valueOf m + valueOf (m + 1) → m % 2 = 0)

theorem aboveHalfway_of_le (h : valueOf m ≤ q) : AboveHalfway q m := by
  rintro n rfl
  have less := valueOf_strictMono (Nat.lt_succ_self n)
  exact ⟨by linarith, fun tie => by linarith⟩

theorem belowHalfway_of_le (h : q ≤ valueOf m) : BelowHalfway q m := by
  intro _
  have less := valueOf_strictMono (Nat.lt_succ_self m)
  exact ⟨by linarith, fun tie => by linarith⟩

theorem AboveHalfway.mono (h : AboveHalfway q m) (le : q ≤ q') : AboveHalfway q' m := by
  rintro n rfl
  obtain ⟨half, even⟩ := h n rfl
  exact ⟨by linarith, fun tie => even (by linarith)⟩

theorem BelowHalfway.mono (h : BelowHalfway q m) (le : q' ≤ q) : BelowHalfway q' m := by
  intro room
  obtain ⟨half, even⟩ := h room
  exact ⟨by linarith, fun tie => even (by linarith)⟩

theorem AboveHalfway.of_lt (h : AboveHalfway q m) (less : n < m) :
    valueOf n + valueOf m ≤ 2 * q ∧ (2 * q = valueOf n + valueOf m → m % 2 = 0) := by
  obtain ⟨before, rfl⟩ := Nat.exists_eq_succ_of_ne_zero (Nat.ne_zero_of_lt less)
  obtain ⟨half, tie⟩ := h before rfl
  have le := valueOf_strictMono.monotone (Nat.le_of_lt_succ less)
  exact ⟨by linarith, fun eq => tie (by linarith)⟩

theorem BelowHalfway.of_lt (h : BelowHalfway q m) (less : m < n) (finite : n ≤ infinity) :
    2 * q ≤ valueOf m + valueOf n ∧ (2 * q = valueOf m + valueOf n → m % 2 = 0) := by
  obtain ⟨half, tie⟩ := h (by omega)
  have le := valueOf_strictMono.monotone (Nat.succ_le_of_lt less)
  exact ⟨by linarith, fun eq => tie (by linarith)⟩

/-- Whether a magnitude is the nearest one is seen from its two neighbours. -/
theorem isNearest_iff :
    IsNearest q m ↔ m ≤ infinity ∧ AboveHalfway q m ∧ BelowHalfway q m := by
  constructor
  · intro h
    refine ⟨h.le_infinity, ?_, ?_⟩
    · rintro n rfl
      have less := valueOf_strictMono (Nat.lt_succ_self n)
      have finite : n ≤ infinity := Nat.le_of_succ_le h.le_infinity
      refine ⟨(abs_sub_ge_iff_of_lt less).mp (h.near n finite), fun tie => ?_⟩
      exact h.even n finite (by omega) ((abs_sub_eq_iff_of_lt less).mpr tie).symm
    · intro room
      have less := valueOf_strictMono (Nat.lt_succ_self m)
      refine ⟨(abs_sub_le_iff_of_lt less).mp (h.near (m + 1) room), fun tie => ?_⟩
      exact h.even (m + 1) room (by omega) ((abs_sub_eq_iff_of_lt less).mpr tie)
  · rintro ⟨finite, above, below⟩
    refine ⟨finite, ?_, ?_⟩
    · intro n hn
      rcases lt_trichotomy n m with less | rfl | more
      · exact (abs_sub_ge_iff_of_lt (valueOf_strictMono less)).mpr (above.of_lt less).1
      · exact le_refl _
      · exact (abs_sub_le_iff_of_lt (valueOf_strictMono more)).mpr (below.of_lt more hn).1
    · intro n hn other tie
      rcases Nat.lt_or_gt_of_ne other with less | more
      · exact (above.of_lt less).2 ((abs_sub_eq_iff_of_lt (valueOf_strictMono less)).mp tie.symm)
      · exact (below.of_lt more hn).2 ((abs_sub_eq_iff_of_lt (valueOf_strictMono more)).mp tie)

/-! ## Order -/

/-- A greater number has no lesser nearest magnitude. -/
theorem IsNearest.mono (h : IsNearest q m) (h' : IsNearest q' n) (le : q ≤ q') : m ≤ n := by
  obtain ⟨finite, above, -⟩ := isNearest_iff.mp h
  obtain ⟨-, -, below⟩ := isNearest_iff.mp h'
  by_contra less
  rw [not_le] at less
  obtain ⟨half, even⟩ := above.of_lt less
  obtain ⟨half', even'⟩ := below.of_lt less finite
  -- Both numbers are halfway between the two magnitudes, and these are both even neighbours.
  have tie := even (by linarith)
  have tie' := even' (by linarith)
  have between : n + 1 < m := by omega
  have inner := (above.of_lt between).1
  have apart := valueOf_strictMono (Nat.lt_succ_self n)
  linarith

theorem IsNearest.unique (h : IsNearest q m) (h' : IsNearest q n) : m = n :=
  Nat.le_antisymm (h.mono h' le_rfl) (h'.mono h le_rfl)

theorem isNearest_valueOf (h : m ≤ infinity) : IsNearest (valueOf m) m :=
  isNearest_iff.mpr ⟨h, aboveHalfway_of_le le_rfl, belowHalfway_of_le le_rfl⟩

/-- There is no gap among the numbers that a magnitude is nearest to. -/
theorem IsNearest.of_between {q'' : ℚ} (low : IsNearest q m) (high : IsNearest q'' m) (le : q ≤ q')
    (le' : q' ≤ q'') : IsNearest q' m := by
  obtain ⟨finite, above, -⟩ := isNearest_iff.mp low
  obtain ⟨-, -, below⟩ := isNearest_iff.mp high
  exact isNearest_iff.mpr ⟨finite, above.mono le, below.mono le'⟩

theorem not_isNearest_zero (positive : 0 < m) : ¬IsNearest 0 m := by
  intro nearest
  rw [← valueOf_zero] at nearest
  exact positive.ne ((isNearest_valueOf (Nat.zero_le _)).unique nearest)

theorem isNearest_infinity (h : valueOf infinity ≤ q) : IsNearest q infinity :=
  isNearest_iff.mpr ⟨le_rfl, aboveHalfway_of_le h, fun room => absurd room (lt_irrefl _)⟩

/-! ## Rounding -/

section

variable (num : Nat) {den : Nat}

theorem valueOf_below_le (positive : 0 < den) :
    valueOf (magnitudeBelow (num * unitsPerOne / den)) ≤ (num : ℚ) / den := by
  have below := units_magnitudeBelow_le (num * unitsPerOne / den)
  have whole : units (magnitudeBelow (num * unitsPerOne / den)) * den ≤ num * unitsPerOne :=
    (Nat.le_div_iff_mul_le positive).mp below
  rw [valueOf, div_le_div_iff₀ unitsPerOne_pos (by exact_mod_cast positive)]
  exact_mod_cast whole

theorem lt_valueOf_succ_below (positive : 0 < den) :
    (num : ℚ) / den < valueOf (magnitudeBelow (num * unitsPerOne / den) + 1) := by
  have above := lt_units_succ_magnitudeBelow (num * unitsPerOne / den)
  have whole : num * unitsPerOne < units (magnitudeBelow (num * unitsPerOne / den) + 1) * den :=
    (Nat.div_lt_iff_lt_mul positive).mp above
  rw [valueOf, div_lt_div_iff₀ (by exact_mod_cast positive) unitsPerOne_pos]
  exact_mod_cast whole

/-- Twice a fraction against the sum of two values, in units. -/
theorem two_mul_lt_iff (positive : 0 < den) :
    2 * (num * unitsPerOne) < den * (units m + units n) ↔
      2 * ((num : ℚ) / den) < valueOf m + valueOf n := by
  have den_pos : (0 : ℚ) < den := by exact_mod_cast positive
  rw [valueOf, valueOf, ← add_div, ← mul_div_assoc, div_lt_div_iff₀ den_pos unitsPerOne_pos,
    ← Nat.cast_lt (α := ℚ)]
  push_cast
  rw [mul_assoc, mul_comm (den : ℚ)]

theorem lt_two_mul_iff (positive : 0 < den) :
    den * (units m + units n) < 2 * (num * unitsPerOne) ↔
      valueOf m + valueOf n < 2 * ((num : ℚ) / den) := by
  have den_pos : (0 : ℚ) < den := by exact_mod_cast positive
  rw [valueOf, valueOf, ← add_div, ← mul_div_assoc, div_lt_div_iff₀ unitsPerOne_pos den_pos,
    ← Nat.cast_lt (α := ℚ)]
  push_cast
  rw [mul_assoc, mul_comm (den : ℚ)]

/-- **`nearest` finds the nearest magnitude.** -/
theorem isNearest_nearest (positive : 0 < den) :
    IsNearest ((num : ℚ) / den) (nearest num den) := by
  have lower := valueOf_below_le num positive
  have upper := lt_valueOf_succ_below num positive
  rw [nearest]
  generalize magnitudeBelow (num * unitsPerOne / den) = below at lower upper ⊢
  by_cases large : infinity ≤ below
  · have rounded : ∀ x, below ≤ x → min x infinity = infinity :=
      fun x le => min_eq_right (large.trans le)
    have beyond := (valueOf_strictMono.monotone large).trans lower
    split
    · rw [rounded _ le_rfl]
      exact isNearest_infinity beyond
    · split
      · rw [rounded _ (Nat.le_succ _)]
        exact isNearest_infinity beyond
      · rw [rounded _ (Nat.le_add_right _ _)]
        exact isNearest_infinity beyond
  · have finite : below + 1 ≤ infinity := by omega
    split
    next first =>
      rw [min_eq_left (by omega)]
      have half := (two_mul_lt_iff num positive).mp first
      exact isNearest_iff.mpr ⟨by omega, aboveHalfway_of_le lower,
        fun _ => ⟨half.le, fun tie => absurd tie half.ne⟩⟩
    next notFirst =>
      split
      next second =>
        rw [min_eq_left finite]
        have half := (lt_two_mul_iff num positive).mp second
        refine isNearest_iff.mpr ⟨finite, ?_, belowHalfway_of_le upper.le⟩
        intro n same
        obtain rfl : below = n := Nat.succ_injective same
        exact ⟨half.le, fun tie => absurd tie half.ne'⟩
      next notSecond =>
        have tie : 2 * ((num : ℚ) / den) = valueOf below + valueOf (below + 1) :=
          le_antisymm (not_lt.mp ((lt_two_mul_iff num positive).not.mp notSecond))
            (not_lt.mp ((two_mul_lt_iff num positive).not.mp notFirst))
        rcases Nat.mod_two_eq_zero_or_one below with even | odd
        · rw [even, Nat.add_zero, min_eq_left (by omega)]
          exact isNearest_iff.mpr ⟨by omega, aboveHalfway_of_le lower,
            fun _ => ⟨tie.le, fun _ => even⟩⟩
        · rw [odd, min_eq_left finite]
          refine isNearest_iff.mpr ⟨finite, ?_, belowHalfway_of_le upper.le⟩
          intro n same
          obtain rfl : below = n := Nat.succ_injective same
          exact ⟨tie.ge, fun _ => by omega⟩

theorem nearest_eq_iff (positive : 0 < den) :
    nearest num den = m ↔ IsNearest ((num : ℚ) / den) m := by
  constructor
  · rintro rfl
    exact isNearest_nearest num positive
  · exact (isNearest_nearest num positive).unique

end

/-! ## Operations -/

/-- An integer is rounded to the nearest number. -/
theorem isNearest_ofInt (i : Int) : IsNearest |(i : ℚ)| (ofInt i).magnitude := by
  have rounded := isNearest_nearest i.natAbs Nat.one_pos
  rwa [Nat.cast_one, div_one, Nat.cast_natAbs, Int.cast_abs] at rounded

/-- The quotient of two numbers is rounded to the nearest number. -/
theorem isNearest_div (a b : Binary64) (nonzero : b.absUnits ≠ 0) :
    IsNearest (a.absRat / b.absRat) (a.div b).magnitude := by
  have rounded := isNearest_nearest a.absUnits (Nat.pos_of_ne_zero nonzero)
  rwa [absRat, absRat, div_div_div_cancel_right₀ unitsPerOne_pos.ne']

end LatencyLog.Binary64
