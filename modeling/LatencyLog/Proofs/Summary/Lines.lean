import LatencyLog.Summary
import LatencyLog.Proofs.Framing.Transcripts
import Mathlib.Data.Set.List

/-! # A pass counts every line once

A pass over a source without faults, all of whose lines are texts, is the count of what its lines
amount to.

* `outcomes`: what texts amount to, in order.
* `Outcome.isSample`, `Outcome.isMalformed`, `Outcome.sample?`, `Outcome.cause?`: the kinds of
  outcomes.
* `skipEvents`: the log of the lines that are skipped.
* `ofCauses_eq`: recording causes one by one counts them by kind.
* `Summary.ofOutcomes`, `ofLines_eq`: a summary is one of outcomes.
* `pass_of_faultFree`: samples, skips, average and log of such a pass.
-/

namespace LatencyLog

set_option autoImplicit false

/-! ## Outcomes -/

namespace Outcome

def isSample : Outcome → Bool
  | sample _ => true
  | skipped _ => false

def isMalformed : Outcome → Bool
  | skipped (.malformed _) => true
  | _ => false

def sample? : Outcome → Option Int128
  | sample value => some value
  | skipped _ => none

def cause? : Outcome → Option SkipCause
  | sample _ => none
  | skipped cause => some cause

end Outcome

/-- What texts amount to. -/
def outcomes (texts : List (List Char)) : List Outcome :=
  texts.map fun text => Outcome.ofLine (String.ofList text)

/-- The events of the outcomes of lines, the first of which has the given number. -/
def skipEvents (number : Nat) : List Outcome → List LogEvent
  | [] => []
  | .sample _ :: rest => skipEvents (number + 1) rest
  | .skipped cause :: rest => .skippingLine number cause :: skipEvents (number + 1) rest

/-- The outcomes of lines with their numbers, the first of which is given. -/
def numbered (number : Nat) : List Outcome → List ClassifiedLine
  | [] => []
  | outcome :: rest => ⟨number, outcome⟩ :: numbered (number + 1) rest

theorem map_outcome_numbered (number : Nat) (os : List Outcome) :
    (numbered number os).map ClassifiedLine.outcome = os := by
  induction os generalizing number with
  | nil => rfl
  | cons o os ih => rw [numbered, List.map_cons, ih]

theorem filterMap_sample?_eq (lines : List ClassifiedLine) :
    lines.filterMap ClassifiedLine.sample? =
      (lines.map ClassifiedLine.outcome).filterMap Outcome.sample? := by
  have same : ClassifiedLine.sample? = Outcome.sample? ∘ ClassifiedLine.outcome := by
    funext line
    obtain ⟨_, outcome⟩ := line
    cases outcome <;> rfl
  rw [same, ← List.filterMap_map]

theorem filterMap_skipCause?_eq (lines : List ClassifiedLine) :
    lines.filterMap ClassifiedLine.skipCause? =
      (lines.map ClassifiedLine.outcome).filterMap Outcome.cause? := by
  have same : ClassifiedLine.skipCause? = Outcome.cause? ∘ ClassifiedLine.outcome := by
    funext line
    obtain ⟨_, outcome⟩ := line
    cases outcome <;> rfl
  rw [same, ← List.filterMap_map]

theorem filterMap_logEvent?_numbered (number : Nat) (os : List Outcome) :
    (numbered number os).filterMap ClassifiedLine.logEvent? = skipEvents number os := by
  induction os generalizing number with
  | nil => rfl
  | cons o os ih =>
    rw [numbered, List.filterMap_cons, ih]
    cases o <;> rfl

/-! ## Counts -/

theorem length_filterMap_sample? (os : List Outcome) :
    (os.filterMap Outcome.sample?).length = os.countP Outcome.isSample := by
  have same : Outcome.isSample = fun o => o.sample?.isSome := by
    funext o
    cases o <;> rfl
  rw [List.length_filterMap_eq_countP, same]

namespace Skips

/-- The skips among outcomes, counted by kind. -/
def ofOutcomes (os : List Outcome) : Skips where
  blank := os.count (.skipped .blank)
  malformed := os.countP Outcome.isMalformed
  notAnObject := os.count (.skipped .notAnObject)
  missingField := os.count (.skipped .missingField)
  nonNumeric := os.count (.skipped .nonNumeric)

/-- The sum of two counts, cause by cause. -/
def plus (s t : Skips) : Skips where
  blank := s.blank + t.blank
  malformed := s.malformed + t.malformed
  notAnObject := s.notAnObject + t.notAnObject
  missingField := s.missingField + t.missingField
  nonNumeric := s.nonNumeric + t.nonNumeric

theorem record_plus (s t : Skips) (cause : SkipCause) :
    (s.record cause).plus t = s.plus ((empty.record cause).plus t) := by
  cases cause <;> simp only [record, plus, empty, mk.injEq] <;> omega

theorem ofOutcomes_sample (value : Int128) (os : List Outcome) :
    ofOutcomes (.sample value :: os) = ofOutcomes os := by
  simp [ofOutcomes, Outcome.isMalformed]

theorem ofOutcomes_skipped (cause : SkipCause) (os : List Outcome) :
    ofOutcomes (.skipped cause :: os) = (empty.record cause).plus (ofOutcomes os) := by
  cases cause <;>
    simp [ofOutcomes, record, plus, empty, Outcome.isMalformed, List.countP_cons, Nat.add_comm]

theorem foldl_record (s : Skips) (os : List Outcome) :
    (os.filterMap Outcome.cause?).foldl record s = s.plus (ofOutcomes os) := by
  induction os generalizing s with
  | nil => rfl
  | cons o os ih =>
    cases o with
    | sample value =>
      rw [ofOutcomes_sample]
      exact ih s
    | skipped cause =>
      rw [ofOutcomes_skipped, ← record_plus]
      exact ih (s.record cause)

theorem ofCauses_eq (os : List Outcome) :
    ofCauses (os.filterMap Outcome.cause?) = ofOutcomes os := by
  rw [ofCauses, foldl_record]
  simp only [plus, empty, Nat.zero_add]

theorem ofOutcomes_perm {os os' : List Outcome} (h : os.Perm os') :
    ofOutcomes os = ofOutcomes os' := by
  simp only [ofOutcomes, mk.injEq]
  exact ⟨h.count_eq _, h.countP_eq _, h.count_eq _, h.count_eq _, h.count_eq _⟩

end Skips

/-! ## Passes -/

theorem ofLines_encode (n : Nat) (texts : List (List Char)) :
    LineStream.Transcript.ofLines n (texts.map Utf8.encode) =
      ⟨numbered (n + 1) (outcomes texts), none, n + texts.length⟩ := by
  induction texts generalizing n with
  | nil => rfl
  | cons text texts ih =>
    have shift : n + 1 + texts.length = n + (texts.length + 1) := by omega
    rw [List.map_cons, LineStream.ofLines_cons_of_ok (LineStream.classify_encode text), ih, shift]
    rfl

theorem transcript_of_faultFree {source : Source} (h : source.FaultFree)
    {texts : List (List Char)} (valid : universalLines source.bytes = texts.map Utf8.encode) :
    (LineStream.ofSource source).transcript =
      ⟨numbered 1 (outcomes texts), none, texts.length⟩ := by
  rw [LineStream.transcript_eq_ofLines h, valid, ofLines_encode, Nat.zero_add, Nat.zero_add]

theorem average_eq_empty_iff (t : Tally) : t.average = .empty ↔ t.count = 0 := by
  rw [Tally.average]
  by_cases h : t.count = 0 <;> simp [h]

theorem count_samples (os : List Outcome) :
    (Tally.empty.extend (os.filterMap Outcome.sample?)).count = os.countP Outcome.isSample := by
  rw [Tally.count_extend, length_filterMap_sample?]
  exact Nat.zero_add _

/-- A summary tells the outcomes of the lines, and nothing of their numbers. -/
def Summary.ofOutcomes (os : List Outcome) : Summary :=
  ⟨Average.ofSamples (os.filterMap Outcome.sample?), os.countP Outcome.isSample,
    Skips.ofOutcomes os⟩

theorem ofLines_eq (lines : List ClassifiedLine) :
    Summary.ofLines lines = Summary.ofOutcomes (lines.map ClassifiedLine.outcome) := by
  rw [Summary.ofLines, filterMap_sample?_eq, filterMap_skipCause?_eq, Skips.ofCauses_eq,
    count_samples]
  rfl

theorem ofLines_numbered (number : Nat) (os : List Outcome) :
    Summary.ofLines (numbered number os) =
      ⟨Average.ofSamples (os.filterMap Outcome.sample?), os.countP Outcome.isSample,
        Skips.ofOutcomes os⟩ := by
  rw [ofLines_eq, map_outcome_numbered]
  rfl

theorem result_of_faultFree {source : Source} (h : source.FaultFree) {texts : List (List Char)}
    (lines : universalLines source.bytes = texts.map Utf8.encode) :
    (Pass.ofSource source).result = .ok (Summary.ofOutcomes (outcomes texts)) := by
  have pass : Pass.ofSource source = Pass.ofTranscript _ :=
    congrArg Pass.ofTranscript (transcript_of_faultFree h lines)
  rw [pass, Pass.ofTranscript, ofLines_numbered]
  rfl

end LatencyLog
