import LatencyLog.Proofs.Average.Saturation
import LatencyLog.Proofs.Summary.Lines
import LatencyLog.Proofs.Utf8.LineEnds

/-! # The order of lines

Lines in another order give the same counts. Their average is the same too, as long as in both
orders no sample leads the sum back from beyond a bound.

* `samplesOf`: the samples among texts.
* `summary_of_permuted`: the summaries of lines in two orders.
* `averages_of_two_orders`: three samples whose averages differ.
-/

namespace LatencyLog

set_option autoImplicit false

/-! ## Two orders -/

theorem result_of_lineBytes {source : Source} (h : source.FaultFree) {texts : List (List Char)}
    (unbroken : ∀ text ∈ texts, Unbroken text) (bytes : source.bytes = lineBytes texts) :
    (Pass.ofSource source).result = .ok (Summary.ofOutcomes (outcomes texts)) := by
  apply result_of_faultFree h
  rw [bytes]
  exact universalLines_lineBytes unbroken

/-- The samples among texts, in order. -/
def samplesOf (texts : List (List Char)) : List Int128 :=
  (outcomes texts).filterMap Outcome.sample?

theorem length_samplesOf_le (texts : List (List Char)) :
    (samplesOf texts).length ≤ texts.length := by
  have fewer := List.length_filterMap_le Outcome.sample? (outcomes texts)
  rwa [outcomes, List.length_map] at fewer

theorem outcomes_perm {texts texts' : List (List Char)} (perm : texts.Perm texts') :
    (outcomes texts).Perm (outcomes texts') := perm.map _

/-- **The order of lines matters to the average alone**, and only where a sample leads the sum back
from beyond a bound. -/
theorem summary_of_permuted {source source' : Source} (h : source.FaultFree)
    (h' : source'.FaultFree) {texts texts' : List (List Char)} (perm : texts.Perm texts')
    (unbroken : ∀ text ∈ texts, Unbroken text) (bytes : source.bytes = lineBytes texts)
    (bytes' : source'.bytes = lineBytes texts') :
    ∃ summary summary', (Pass.ofSource source).result = .ok summary ∧
      (Pass.ofSource source').result = .ok summary' ∧
      summary'.samples = summary.samples ∧ summary'.skips = summary.skips ∧
      (StaysBeyond (samplesOf texts) → StaysBeyond (samplesOf texts') →
        summary'.average = summary.average) := by
  have amounts := outcomes_perm perm.symm
  have unbroken' : ∀ text ∈ texts', Unbroken text :=
    fun text member => unbroken text (perm.mem_iff.mpr member)
  refine ⟨_, _, result_of_lineBytes h unbroken bytes, result_of_lineBytes h' unbroken' bytes',
    ?_, ?_, ?_⟩
  · exact amounts.countP_eq _
  · exact Skips.ofOutcomes_perm amounts
  · intro stays stays'
    exact average_ofSamples_perm (amounts.filterMap _) stays' stays

/-- Four lines and the same from the last to the first: two samples beyond the upper bound, one of
three, and a line that is skipped. -/
theorem summary_of_two_orders :
    let wide := "\x7b\"AverageLatency\": 1e39\x7d".toList
    let texts := [wide, "nope".toList, "\x7b\"AverageLatency\": 3\x7d".toList, wide]
    let source : Source := [.buffer (lineBytes texts)]
    let source' : Source := [.buffer (lineBytes texts.reverse)]
    (∀ text ∈ texts, Unbroken text) ∧ StaysBeyond (samplesOf texts) ∧
      StaysBeyond (samplesOf texts.reverse) ∧
      ∃ summary summary', (Pass.ofSource source).result = .ok summary ∧
        (Pass.ofSource source').result = .ok summary' ∧ summary'.average = summary.average := by
  intro wide texts source source'
  have unbroken : ∀ text ∈ texts, Unbroken text := by decide +kernel
  have positive : ∀ texts', (samplesOf texts').all (fun x => decide (0 ≤ x.toInt)) = true →
      StaysBeyond (samplesOf texts') := by
    intro texts' checked
    apply staysBeyond_of_nonneg
    simpa using checked
  have stays : StaysBeyond (samplesOf texts) := positive _ (by decide +kernel)
  have stays' : StaysBeyond (samplesOf texts.reverse) := positive _ (by decide +kernel)
  have free : source.FaultFree := by decide
  have free' : source'.FaultFree := by decide
  obtain ⟨summary, summary', result, result', -, -, same⟩ :=
    summary_of_permuted free free' (List.reverse_perm texts).symm unbroken (List.append_nil _)
      (List.append_nil _)
  exact ⟨unbroken, stays, stays', summary, summary', result, result', same stays stays'⟩

/-- The second sample goes beyond the upper bound, and the third one leads back. -/
theorem averages_of_two_orders :
    let wide := "\x7b\"AverageLatency\": 1e39\x7d".toList
    let low := "\x7b\"AverageLatency\": -1e39\x7d".toList
    let source : Source := [.buffer (lineBytes [wide, wide, low])]
    let source' : Source := [.buffer (lineBytes [wide, low, wide])]
    [wide, wide, low].Perm [wide, low, wide] ∧ (∀ text ∈ [wide, wide, low], Unbroken text) ∧
      ∃ summary summary', (Pass.ofSource source).result = .ok summary ∧
        (Pass.ofSource source').result = .ok summary' ∧ summary'.average ≠ summary.average := by
  intro wide low source source'
  have perm : [wide, wide, low].Perm [wide, low, wide] := .cons _ (.swap _ _ _)
  have unbroken : ∀ text ∈ [wide, wide, low], Unbroken text := by decide +kernel
  have unbroken' : ∀ text ∈ [wide, low, wide], Unbroken text := by decide +kernel
  refine ⟨perm, unbroken, _, _, result_of_lineBytes (by decide) unbroken (List.append_nil _),
    result_of_lineBytes (by decide) unbroken' (List.append_nil _), ?_⟩
  decide +kernel

end LatencyLog
