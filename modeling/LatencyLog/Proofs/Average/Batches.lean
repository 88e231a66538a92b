import LatencyLog.Proofs.Average.Saturation

/-! # Samples in batches

Samples come to a tally one by one or many at once. What it holds in the end depends only on the
samples in their order, and for samples of one sign not even on that.

* `Tally.Entry`: one sample, or many at once.
* `Tally.enterAll`: a tally after entries; `Tally.enterAll_eq_extend` says that batches leave no
  trace.
* `Tally.enterAll_holds`: the count and the sum of a tally after any entries.
-/

namespace LatencyLog.Tally

set_option autoImplicit false

/-! ## Entries -/

/-- What a tally is given at once. -/
inductive Entry where
  | one (sample : Int128)
  | many (samples : List Int128)
  deriving DecidableEq

def Entry.samples : Entry → List Int128
  | one sample => [sample]
  | many samples => samples

def enter (t : Tally) : Entry → Tally
  | .one sample => t.push sample
  | .many samples => t.extend samples

def enterAll (t : Tally) (entries : List Entry) : Tally := entries.foldl enter t

/-- The samples of entries, in their order. -/
def entered (entries : List Entry) : List Int128 := entries.flatMap Entry.samples

theorem enter_eq_extend (t : Tally) (entry : Entry) : t.enter entry = t.extend entry.samples := by
  cases entry <;> rfl

/-- A tally does not depend on how its samples are divided into entries. -/
theorem enterAll_eq_extend (t : Tally) (entries : List Entry) :
    t.enterAll entries = t.extend (entered entries) := by
  induction entries generalizing t with
  | nil => rfl
  | cons entry entries ih =>
    rw [entered, List.flatMap_cons, extend_append, ← enter_eq_extend]
    exact ih (t.enter entry)

/-! ## Samples of one sign -/

variable {samples others : List Int128}

theorem sum_extend_of_nonneg (h : ∀ x ∈ samples, 0 ≤ x.toInt) :
    (empty.extend samples).sum.toInt = min (total samples) (2 ^ 127 - 1) := by
  have positive := total_nonneg h
  rw [sum_extend_eq_clamp (staysBeyond_of_nonneg h), Int128.toInt_clamp]
  omega

theorem sum_extend_of_nonpos (h : ∀ x ∈ samples, x.toInt ≤ 0) :
    (empty.extend samples).sum.toInt = max (total samples) (-2 ^ 127) := by
  have negative := total_nonpos h
  rw [sum_extend_eq_clamp (staysBeyond_of_nonpos h), Int128.toInt_clamp]
  omega

/-- No sample has another sign than the others. -/
def OfOneSign (samples : List Int128) : Prop :=
  (∀ x ∈ samples, 0 ≤ x.toInt) ∨ ∀ x ∈ samples, x.toInt ≤ 0

theorem OfOneSign.staysBeyond (h : OfOneSign samples) : StaysBeyond samples :=
  h.elim staysBeyond_of_nonneg staysBeyond_of_nonpos

theorem OfOneSign.perm (h : OfOneSign samples) (perm : others.Perm samples) : OfOneSign others :=
  h.imp (fun sign x member => sign x (perm.subset member))
    fun sign x member => sign x (perm.subset member)

/-! ## Any entries -/

/-- **What a tally holds after any entries.** It counts all samples, and its sum stays within 128
bits. The sum is the exact total as long as no running total leaves them. For samples of one sign it
is the exact total, kept at the bound once, so that neither their order nor their batches matter. -/
theorem enterAll_holds (entries : List Entry) :
    let samples := entered entries
    let t := empty.enterAll entries
    t.count = samples.length ∧ (-2 ^ 127 ≤ t.sum.toInt ∧ t.sum.toInt ≤ 2 ^ 127 - 1) ∧
      (TotalsWithin samples → t.sum.toInt = total samples) ∧
      ((∀ x ∈ samples, 0 ≤ x.toInt) → t.sum.toInt = min (total samples) (2 ^ 127 - 1)) ∧
      ((∀ x ∈ samples, x.toInt ≤ 0) → t.sum.toInt = max (total samples) (-2 ^ 127)) ∧
      (OfOneSign samples → ∀ others, (entered others).Perm samples →
        empty.enterAll others = t) := by
  intro samples t
  have whole : t = empty.extend samples := enterAll_eq_extend empty entries
  refine ⟨?_, ⟨t.sum.minValue_le, t.sum.le_maxValue⟩, ?_, ?_, ?_, ?_⟩
  · rw [whole, count_empty_extend]
  · intro within
    rw [whole, sum_extend_eq_total within]
  · intro nonneg
    rw [whole, sum_extend_of_nonneg nonneg]
  · intro nonpos
    rw [whole, sum_extend_of_nonpos nonpos]
  · intro sign others perm
    rw [enterAll_eq_extend, whole]
    exact extend_perm perm (sign.perm perm).staysBeyond sign.staysBeyond

/-- The sum reaches the upper bound within a batch and stays there, in either order. -/
theorem enterAll_of_saturated_batches :
    let most := Int128.clamp (2 ^ 127 - 1)
    let entries : List Entry := [.many [most, Int128.clamp 2], .one most]
    let others : List Entry := [.one (Int128.clamp 2), .many [], .many [most, most]]
    OfOneSign (entered entries) ∧ (entered others).Perm (entered entries) ∧
      (empty.enterAll entries).count = 3 ∧
      (empty.enterAll entries).sum.toInt = 2 ^ 127 - 1 ∧
      empty.enterAll others = empty.enterAll entries := by
  intro most entries others
  have nonneg : ∀ x ∈ entered entries, 0 ≤ x.toInt := by decide
  have perm : (entered others).Perm (entered entries) := by decide
  obtain ⟨count, -, -, sum, -, alike⟩ := enterAll_holds entries
  exact ⟨.inl nonneg, perm, count, (sum nonneg).trans (by decide), alike (.inl nonneg) others perm⟩

end LatencyLog.Tally
