import LatencyLog.Proofs.Framing.Answers

/-! # Transcripts by lines

The transcript of a source without faults depends on its lines alone: it goes on to the first line
that is no text, or to the end of the input.

* `Transcript.ofLines`: the transcript of lines, the first of which comes after a number of others.
* `transcript_eq_ofLines`: the transcript of a source without faults.
* `ofLines_append_of_failure`, `ofLines_append_of_whole`: lines that are put after others.
* `ofLines_shift`: one line more before them moves the numbers and nothing else.
* `answer_of_length_le`, `length_le_of_answer_eq_none`: the end of the input tells the number of
  lines.
-/

namespace LatencyLog.LineStream

set_option autoImplicit false

/-- The transcript of lines that come after `answered` others. -/
def Transcript.ofLines (answered : Nat) : List (List UInt8) → Transcript
  | [] => ⟨[], none, answered⟩
  | line :: rest =>
    match classify line with
    | .error f => ⟨[], some f, answered + 1⟩
    | .ok outcome =>
      let later := ofLines (answered + 1) rest
      { later with lines := ⟨answered + 1, outcome⟩ :: later.lines }

open Transcript

variable {n : Nat} {line : List UInt8} {lines more : List (List UInt8)}

theorem ofLines_cons_of_error {f : ReadFailure} (h : classify line = .error f)
    (rest : List (List UInt8)) : ofLines n (line :: rest) = ⟨[], some f, n + 1⟩ := by
  rw [ofLines, h]

theorem ofLines_cons_of_ok {outcome : Outcome} (h : classify line = .ok outcome)
    (rest : List (List UInt8)) :
    ofLines n (line :: rest) =
      ⟨⟨n + 1, outcome⟩ :: (ofLines (n + 1) rest).lines, (ofLines (n + 1) rest).failure,
        (ofLines (n + 1) rest).answered⟩ := by
  rw [ofLines, h]

theorem lineAnswer_of_error {f : ReadFailure} (h : classify line = .error f) :
    lineAnswer n line = .error f := by
  rw [lineAnswer, h]
  rfl

theorem lineAnswer_of_ok {outcome : Outcome} (h : classify line = .ok outcome) :
    lineAnswer n line = .ok ⟨n, outcome⟩ := by
  rw [lineAnswer, h]
  rfl

/-! ## Answers -/

/-- A stream that answers to lines answers as their transcript says. -/
theorem answers_ofLines {s : LineStream}
    (h : ∀ k line, lines[k]? = some line → s.answer k = some (lineAnswer (n + k + 1) line) ∧
      (s.after (k + 1)).answered = n + k + 1)
    (ended : s.answer lines.length = none)
    (count : (s.after (lines.length + 1)).answered = n + lines.length) :
    (∀ k line, (ofLines n lines).lines[k]? = some line → s.answer k = some (.ok line)) ∧
      s.answer (ofLines n lines).lines.length = (ofLines n lines).failure.map .error ∧
      (s.after ((ofLines n lines).lines.length + 1)).answered = (ofLines n lines).answered := by
  induction lines generalizing s n with
  | nil => exact ⟨fun k line hk => (by cases hk), ended, count⟩
  | cons line rest ih =>
    obtain ⟨first, number⟩ := h 0 line rfl
    cases told : classify line with
    | error f =>
      -- The transcript ends here, whatever the stream answers to the lines after this one.
      rw [ofLines_cons_of_error told]
      rw [lineAnswer_of_error told] at first
      exact ⟨fun k line hk => (by cases hk), first, number⟩
    | ok outcome =>
      rw [ofLines_cons_of_ok told]
      rw [lineAnswer_of_ok told] at first
      have later : ∀ k line, rest[k]? = some line →
          s.next.2.answer k = some (lineAnswer (n + 1 + k + 1) line) ∧
            (s.next.2.after (k + 1)).answered = n + 1 + k + 1 := by
        intro k line hk
        have shift : n + 1 + k + 1 = n + (k + 1) + 1 := by omega
        rw [shift]
        exact h (k + 1) line hk
      have total : (s.next.2.after (rest.length + 1)).answered = n + 1 + rest.length := by
        rw [List.length_cons] at count
        rw [Nat.add_assoc, Nat.add_comm 1]
        exact count
      obtain ⟨answers, final, reached⟩ := ih later ended total
      refine ⟨?_, final, reached⟩
      intro k line hk
      cases k with
      | zero =>
        rw [List.getElem?_cons_zero, Option.some.injEq] at hk
        rw [← hk]
        exact first
      | succ k => exact answers k line hk

/-- **The transcript of a source without faults is that of its lines.** -/
theorem transcript_eq_ofLines {source : Source} (h : source.FaultFree) :
    (ofSource source).transcript = ofLines 0 (universalLines source.bytes) := by
  obtain ⟨lines, -, ret, final⟩ := calls_of_faultFree h
  have answers : ∀ k line, (universalLines source.bytes)[k]? = some line →
      (ofSource source).answer k = some (lineAnswer (0 + k + 1) line) ∧
        ((ofSource source).after (k + 1)).answered = 0 + k + 1 := by
    intro k line hk
    rw [Nat.zero_add]
    exact lines k line hk
  have count : ((ofSource source).after ((universalLines source.bytes).length + 1)).answered =
      0 + (universalLines source.bytes).length := by
    rw [after_succ, final, Nat.zero_add]
  obtain ⟨called, failed, reached⟩ := answers_ofLines answers (congrArg Prod.fst final) count
  rw [transcript, transcriptFrom_of_answers called failed, reached]
  rfl

/-! ## Lines after others -/

theorem answered_of_failure {f : ReadFailure} (h : (ofLines n lines).failure = some f) :
    n < (ofLines n lines).answered ∧ (ofLines n lines).answered ≤ n + lines.length := by
  induction lines generalizing n with
  | nil => cases h
  | cons line rest ih =>
    rw [List.length_cons]
    cases told : classify line with
    | error g =>
      rw [ofLines_cons_of_error told]
      show n < n + 1 ∧ n + 1 ≤ n + (rest.length + 1)
      omega
    | ok outcome =>
      rw [ofLines_cons_of_ok told] at h ⊢
      have later := ih h
      show n < (ofLines (n + 1) rest).answered ∧
        (ofLines (n + 1) rest).answered ≤ n + (rest.length + 1)
      omega

theorem ofLines_append_of_failure {f : ReadFailure} (h : (ofLines n lines).failure = some f) :
    ofLines n (lines ++ more) = ofLines n lines := by
  induction lines generalizing n with
  | nil => cases h
  | cons line rest ih =>
    rw [List.cons_append]
    cases told : classify line with
    | error g => rw [ofLines_cons_of_error told, ofLines_cons_of_error told]
    | ok outcome =>
      rw [ofLines_cons_of_ok told] at h
      rw [ofLines_cons_of_ok told, ofLines_cons_of_ok told, ih h]

theorem ofLines_append_of_whole (h : (ofLines n lines).failure = none) :
    ofLines n (lines ++ more) =
      ⟨(ofLines n lines).lines ++ (ofLines (n + lines.length) more).lines,
        (ofLines (n + lines.length) more).failure,
        (ofLines (n + lines.length) more).answered⟩ := by
  induction lines generalizing n with
  | nil => rfl
  | cons line rest ih =>
    rw [List.cons_append, List.length_cons]
    cases told : classify line with
    | error g =>
      rw [ofLines_cons_of_error told] at h
      cases h
    | ok outcome =>
      have shift : n + (rest.length + 1) = n + 1 + rest.length := by omega
      rw [ofLines_cons_of_ok told] at h
      rw [ofLines_cons_of_ok told, ofLines_cons_of_ok told, ih h, shift]
      rfl

theorem ofLines_shift (n : Nat) (lines : List (List UInt8)) :
    (ofLines (n + 1) lines).lines.map ClassifiedLine.outcome =
        (ofLines n lines).lines.map ClassifiedLine.outcome ∧
      (ofLines (n + 1) lines).failure = (ofLines n lines).failure ∧
      (ofLines (n + 1) lines).answered = (ofLines n lines).answered + 1 := by
  induction lines generalizing n with
  | nil => exact ⟨rfl, rfl, rfl⟩
  | cons line rest ih =>
    cases told : classify line with
    | error f =>
      rw [ofLines_cons_of_error told, ofLines_cons_of_error told]
      exact ⟨rfl, rfl, rfl⟩
    | ok outcome =>
      obtain ⟨amounts, failed, number⟩ := ih (n + 1)
      rw [ofLines_cons_of_ok told, ofLines_cons_of_ok told, List.map_cons, List.map_cons, amounts]
      exact ⟨rfl, failed, number⟩

/-! ## Counting lines -/

theorem answer_of_length_le {source : Source} (h : source.FaultFree) {k : Nat}
    (past : (universalLines source.bytes).length ≤ k) : (ofSource source).answer k = none := by
  obtain ⟨-, -, ret, final⟩ := calls_of_faultFree h
  rcases Nat.eq_or_lt_of_le past with rfl | later
  · exact congrArg Prod.fst final
  · have drained : (ofSource source).after ((universalLines source.bytes).length + 1) =
        ⟨[], (universalLines source.bytes).length, ret⟩ := by
      rw [after_succ, final]
    exact (answer_of_drained drained later).1

theorem length_le_of_answer_eq_none {source : Source} (h : source.FaultFree) {k : Nat}
    (ended : (ofSource source).answer k = none) : (universalLines source.bytes).length ≤ k := by
  by_contra inside
  have found := List.getElem?_eq_getElem (Nat.lt_of_not_le inside)
  have answered := ((calls_of_faultFree h).1 k _ found).1
  rw [ended] at answered
  cases answered

/-! ## Lines of texts -/

theorem classify_encode (text : List Char) :
    classify (Utf8.encode text) = .ok (Outcome.ofLine (String.ofList text)) := by
  rw [classify, Utf8.decode_encode]

end LatencyLog.LineStream
