import LatencyLog.Average
import LatencyLog.Proofs.Binary64.ReadBack

/-! # The printed average

* `Average.text_eq_zero_iff`: only the average of no samples is printed as an integer.
* `Average.eq_of_text_eq`: averages of one text are the same.
* `Average.text_reads_back`: what is printed, in which form, and what it denotes.
-/

namespace LatencyLog.Average

set_option autoImplicit false

open Binary64

theorem text_eq_zero_iff (a : Average) : a.text = "0" ↔ a = .empty := by
  cases a with
  | empty => exact ⟨fun _ => rfl, fun _ => rfl⟩
  | value v =>
    refine ⟨fun same => absurd same v.text_ne_zero, ?_⟩
    rintro ⟨⟩

/-- The average is not a value that is no number. -/
def HasNumber (a : Average) : Prop := ∀ v, a = .value v → v.isNaN = false

theorem eq_of_text_eq {a b : Average} (ha : a.HasNumber) (hb : b.HasNumber)
    (same : a.text = b.text) : a = b := by
  cases a with
  | empty => exact ((text_eq_zero_iff b).mp same.symm).symm
  | value v =>
    cases b with
    | empty => exact (text_eq_zero_iff _).mp same
    | value w =>
      have texts : v.text = w.text := same
      have reads := (isReading_text_iff (hb w rfl) w).mpr rfl
      rw [← texts] at reads
      rw [(isReading_text_iff (ha v rfl) w).mp reads]

theorem isPositional_magnitude_iff (v : Binary64) :
    isPositional v.magnitude = true ↔
      v.isZero = true ∨ (1 / 10 ^ 4 ≤ v.absRat ∧ v.absRat < 10 ^ 16) := by
  rw [isPositional_iff, isZero, beq_iff_eq, absRat_eq_valueOf, InPositionalRange]

/-- **The printed average reads back.** Only that of no samples is `0`. The text of a value denotes
this value and no other. It is positional for zero and from `10 ^ -4` up to `10 ^ 16`, and
scientific elsewhere. -/
theorem text_reads_back :
    (∀ a : Average, a.text = "0" ↔ a = .empty) ∧
    (∀ v : Binary64, v.isNaN = false → ∀ w, IsReading (value v).text.toList w ↔ w = v) ∧
    (∀ a b : Average, a.HasNumber → b.HasNumber → a.text = b.text → a = b) ∧
    ∀ v : Binary64, v.isFinite = true →
      ∃ body, (value v).text.toList = signed v.negative body ∧
        ((v.isZero = true ∨ (1 / 10 ^ 4 ≤ v.absRat ∧ v.absRat < 10 ^ 16)) → PositionalForm body) ∧
        (¬(v.isZero = true ∨ (1 / 10 ^ 4 ≤ v.absRat ∧ v.absRat < 10 ^ 16)) →
          ∃ n ≥ 2, ScientificForm n body) := by
  refine ⟨text_eq_zero_iff, fun v number => isReading_text_iff number,
    fun a b ha hb => eq_of_text_eq ha hb, ?_⟩
  intro v isFinite
  have finite : v.magnitude < infinity := of_decide_eq_true isFinite
  have number : v.isNaN = false := decide_eq_false finite.le.not_gt
  rw [← isPositional_magnitude_iff, isPositional_iff]
  exact ⟨magnitudeText v.magnitude, toList_text number, positionalForm_magnitudeText finite,
    fun outside => ⟨_, le_max_left _ _, scientificForm_magnitudeText finite outside⟩⟩

/-- The negative number next to zero has one digit and three in its exponent, and the negative zero
keeps its sign. -/
theorem text_of_least_reads_back :
    IsReading "-5e-324".toList ⟨true, 1, by decide⟩ ∧
      (∃ n ≥ 2, ScientificForm n "5e-324".toList) ∧
      (value (zero true)).text ≠ (value (zero false)).text := by
  have written : (value ⟨true, 1, by decide⟩).text = "-5e-324" := by decide +kernel
  have reads := (text_reads_back.2.1 ⟨true, 1, by decide⟩ (by decide) _).mpr rfl
  obtain ⟨body, split, -, form⟩ := text_reads_back.2.2.2 ⟨true, 1, by decide⟩ (by decide)
  rw [written] at reads split
  obtain rfl : "5e-324".toList = body := (List.cons.inj split).2
  refine ⟨reads, form ((isPositional_magnitude_iff _).not.mp (by decide +kernel)), fun same => ?_⟩
  have equal := text_reads_back.2.2.1 (value (zero true)) (value (zero false))
    (by rintro v ⟨⟩; decide) (by rintro v ⟨⟩; decide) same
  exact absurd equal (by decide)

end LatencyLog.Average
