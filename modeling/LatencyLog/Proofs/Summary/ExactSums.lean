import LatencyLog.Proofs.Record.Truncation
import LatencyLog.Proofs.Summary.Order

/-! # Exact sums

The sum of the samples of some lines is their exact total as long as no running total leaves the
128 bits. Integers and truth values cannot carry it out of them in fewer than `2 ^ 63` lines; a real
or a text can, also one that lies within the bounds itself.

* `latencyValue?`: the latency value of a line.
* `isClamped`: the reals that are kept at a bound. `isWide`: the reals and texts whose sample is
  wider than that of an integer can be.
* `sum_of_lines_exact`: when the sum is exact all the way for the samples of lines.
* `sum_of_texts_at_bound`: a sum of texts that is not exact.
-/

namespace LatencyLog

set_option autoImplicit false

/-! ## Running totals -/

section

variable {samples : List Int128}

theorem abs_total_le {bound : Int} (h : ∀ x ∈ samples, |x.toInt| ≤ bound) :
    |total samples| ≤ samples.length * bound := by
  induction samples with
  | nil => simp [total]
  | cons x samples ih =>
    obtain ⟨first, rest⟩ := List.forall_mem_cons.mp h
    have split : total (x :: samples) = x.toInt + total samples := by simp [total]
    have count : ((x :: samples).length : Int) * bound = bound + samples.length * bound := by
      rw [List.length_cons]
      push_cast
      ring
    rw [split, count]
    exact (abs_add_le _ _).trans (add_le_add first (ih rest))

theorem totalsWithin_of_abs_le {bound : Int} (h : ∀ x ∈ samples, |x.toInt| ≤ bound)
    (positive : 0 ≤ bound) (few : samples.length * bound ≤ 2 ^ 127 - 1) :
    TotalsWithin samples := by
  intro before begins
  have small := abs_total_le fun x member => h x (begins.subset member)
  have shorter : (before.length : Int) * bound ≤ samples.length * bound :=
    mul_le_mul_of_nonneg_right (by exact_mod_cast begins.length_le) positive
  obtain ⟨lower, upper⟩ := abs_le.mp (small.trans (shorter.trans few))
  constructor
  · linarith
  · exact upper

end

/-! ## Latency values -/

/-- The value of the last latency member of a line that is a record. -/
def latencyValue? (line : String) : Option Json.Value :=
  match Json.read line.toList with
  | .ok (.object members) => Json.lastMember? latencyKey members
  | _ => none

/-- A real that lies outside of the 128 bits, and is kept at a bound of theirs. -/
def isClamped : Json.Value → Bool
  | .number (.real a) => decide (a.truncate < -2 ^ 127) || decide (2 ^ 127 - 1 < a.truncate)
  | _ => false

/-- A real or a text whose sample lies further from zero than `2 ^ 64`. -/
def isWide (v : Json.Value) : Bool :=
  match v with
  | .number (.real a) => decide (2 ^ 64 < |(Int128.clamp a.truncate).toInt|)
  | .text t =>
    match Int128.ofDecimal? (Text.trim t.toList) with
    | some x => decide (2 ^ 64 < |x.toInt|)
    | none => false
  | _ => false

theorem exists_latencyValue_of_sample {line : String} {x : Int128}
    (h : Outcome.ofLine line = .sample x) :
    ∃ v, latencyValue? line = some v ∧ latency? v = some x ∧ IntegerBounded v := by
  obtain ⟨members, read⟩ := Outcome.exists_object_of_isRecord (Outcome.isRecord_of_sample h)
  have spelled := Json.read_eq_ok_iff_spells.mp read
  have found : latencyValue? line = Json.lastMember? latencyKey members := by
    rw [latencyValue?, read]
  rw [Outcome.ofLine_eq_ofMembers spelled, Outcome.ofMembers] at h
  cases last : Json.lastMember? latencyKey members with
  | none =>
    rw [last] at h
    cases h
  | some v =>
    rw [last] at h found
    cases coerced : latency? v with
    | none => simp [coerced] at h
    | some y =>
      have same : y = x := by simpa [coerced] using h
      refine ⟨v, found, by rw [coerced, same], ?_⟩
      apply Json.integerBounded_of_spells_object spelled
      rw [Json.lastMember?] at last
      obtain ⟨m, member, rfl⟩ := Option.map_eq_some_iff.mp last
      exact List.mem_map_of_mem (List.mem_reverse.mp (List.mem_of_find?_eq_some member))

theorem abs_le_of_not_isWide {v : Json.Value} {x : Int128} (bounded : IntegerBounded v)
    (found : latency? v = some x) (narrow : isWide v = false) : |x.toInt| ≤ 2 ^ 64 := by
  cases v with
  | null => cases found
  | list items => cases found
  | object members => cases found
  | bool b =>
    cases found
    cases b <;> decide
  | number n =>
    cases n with
    | integer i =>
      cases found
      obtain ⟨lower, upper⟩ := bounded i rfl
      rw [Int128.toInt_clamp_of_mem (by omega) (by omega), abs_le]
      omega
    | real a =>
      cases found
      simpa [isWide] using narrow
  | text t =>
    have read : Int128.ofDecimal? (Text.trim t.toList) = some x := found
    simpa [isWide, read] using narrow

/-! ## Sums of lines -/

theorem abs_le_of_mem_samplesOf {texts : List (List Char)}
    (narrow : ∀ text ∈ texts, ∀ v, latencyValue? (String.ofList text) = some v →
      isWide v = false) :
    ∀ x ∈ samplesOf texts, |x.toInt| ≤ 2 ^ 64 := by
  intro x member
  obtain ⟨o, listed, sampled⟩ := List.mem_filterMap.mp member
  obtain ⟨text, inside, rfl⟩ := List.mem_map.mp listed
  cases told : Outcome.ofLine (String.ofList text) with
  | skipped cause =>
    rw [told] at sampled
    cases sampled
  | sample y =>
    rw [told] at sampled
    cases sampled
    obtain ⟨v, found, coerced, bounded⟩ := exists_latencyValue_of_sample told
    exact abs_le_of_not_isWide bounded coerced (narrow text inside v found)

/-- **The sum of lines is exact all the way just if no running total leaves the bounds**, and none
does in fewer than `2 ^ 63` lines whose latency values are no wide reals or texts. -/
theorem sum_of_lines_exact (texts : List (List Char)) :
    ((∀ before, before <+: samplesOf texts →
        (Tally.empty.extend before).sum.toInt = total before) ↔ TotalsWithin (samplesOf texts)) ∧
    (texts.length < 2 ^ 63 →
      (∀ text ∈ texts, ∀ v, latencyValue? (String.ofList text) = some v → isWide v = false) →
      (Tally.empty.extend (samplesOf texts)).sum.toInt = total (samplesOf texts)) := by
  refine ⟨Tally.sum_prefix_eq_total_iff, fun few narrow => ?_⟩
  apply Tally.sum_extend_eq_total
  apply totalsWithin_of_abs_le (abs_le_of_mem_samplesOf narrow) (by norm_num)
  have fewer := length_samplesOf_le texts
  omega

/-- The widest integer, a text, a real and a line that is no record. -/
theorem sum_of_narrow_lines :
    let texts := ["\x7b\"AverageLatency\": 18446744073709551615\x7d".toList,
      "\x7b\"AverageLatency\": \" -5\"\x7d".toList, "\x7b\"AverageLatency\": -2.9\x7d".toList,
      "nope".toList]
    texts.length < 2 ^ 63 ∧
      (∀ text ∈ texts, ∀ v, latencyValue? (String.ofList text) = some v → isWide v = false) ∧
      (Tally.empty.extend (samplesOf texts)).sum.toInt = total (samplesOf texts) ∧
      total (samplesOf texts) = 18446744073709551608 := by
  intro texts
  have few : texts.length < 2 ^ 63 := by decide
  have checked : ∀ text ∈ texts,
      (latencyValue? (String.ofList text)).all (fun v => !isWide v) = true := by
    decide +kernel
  have narrow : ∀ text ∈ texts, ∀ v, latencyValue? (String.ofList text) = some v →
      isWide v = false := by
    intro text member v found
    have told := checked text member
    rw [found] at told
    simpa using told
  exact ⟨few, narrow, (sum_of_lines_exact texts).2 few narrow, by decide +kernel⟩

/-- Two texts at the upper bound, neither of them a real: the second one has no room left. -/
theorem sum_of_texts_at_bound :
    let wide := "\x7b\"AverageLatency\": \"170141183460469231731687303715884105727\"\x7d".toList
    let low := "\x7b\"AverageLatency\": \"-170141183460469231731687303715884105727\"\x7d".toList
    (∀ text ∈ [wide, wide, low], ∀ v, latencyValue? (String.ofList text) = some v →
        isClamped v = false) ∧
      (Tally.empty.extend (samplesOf [wide, wide, low])).sum.toInt ≠
        total (samplesOf [wide, wide, low]) := by
  intro wide low
  have noReal : ∀ text ∈ [wide, wide, low],
      (latencyValue? (String.ofList text)).all (fun v => !isClamped v) = true := by
    decide +kernel
  refine ⟨?_, by decide +kernel⟩
  intro text member v found
  have checked := noReal text member
  rw [found] at checked
  simpa using checked

end LatencyLog
