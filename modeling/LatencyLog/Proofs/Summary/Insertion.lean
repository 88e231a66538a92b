import LatencyLog.Proofs.Summary.Lines
import LatencyLog.Proofs.Utf8.LineEnds

/-! # A skipped line more

A line that is skipped, put where a line begins, adds to one count of skips and moves the line of
a later failure, and nothing else.

* `Skips.OneMore`: one count more, and the others as they were.
* `ofOutcomes_insert`: a skip among outcomes.
* `resultOfLines_insert_of_ok`, `resultOfLines_insert_of_error`: a skip among lines.
* `universalLines_insert`: a line among bytes.
* `result_of_inserted_skip`: the results of a pass with and without the line.
-/

namespace LatencyLog

set_option autoImplicit false

/-! ## A skip among outcomes -/

/-- The counter of the cause is one larger, and the other four are as they were. -/
structure Skips.OneMore (s : Skips) (cause : SkipCause) (t : Skips) : Prop where
  blank : t.blank = s.blank + if cause = .blank then 1 else 0
  malformed : t.malformed = s.malformed + if (Outcome.skipped cause).isMalformed then 1 else 0
  notAnObject : t.notAnObject = s.notAnObject + if cause = .notAnObject then 1 else 0
  missingField : t.missingField = s.missingField + if cause = .missingField then 1 else 0
  nonNumeric : t.nonNumeric = s.nonNumeric + if cause = .nonNumeric then 1 else 0

theorem Skips.oneMore_iff {s t : Skips} {cause : SkipCause} :
    s.OneMore cause t ↔ t = s.record cause := by
  constructor
  · rintro ⟨blank, malformed, notAnObject, missingField, nonNumeric⟩
    cases t
    cases cause <;> simp_all [record, Outcome.isMalformed]
  · rintro rfl
    cases cause <;> constructor <;> simp [record, Outcome.isMalformed]

theorem ofOutcomes_insert (before later : List Outcome) (cause : SkipCause) :
    Summary.ofOutcomes (before ++ .skipped cause :: later) =
      { Summary.ofOutcomes (before ++ later) with
        skips := (Skips.ofOutcomes (before ++ later)).record cause } := by
  have samples : (before ++ .skipped cause :: later).filterMap Outcome.sample? =
      (before ++ later).filterMap Outcome.sample? := by
    rw [List.filterMap_append, List.filterMap_append]
    rfl
  have count : (before ++ .skipped cause :: later).countP Outcome.isSample =
      (before ++ later).countP Outcome.isSample := by
    simp [Outcome.isSample]
  have skips : Skips.ofOutcomes (before ++ .skipped cause :: later) =
      (Skips.ofOutcomes (before ++ later)).record cause := by
    rw [Skips.ofOutcomes_perm List.perm_middle, Skips.ofOutcomes_skipped]
    cases cause <;> simp [Skips.record, Skips.plus, Skips.empty, Nat.add_comm]
  unfold Summary.ofOutcomes
  rw [samples, count, skips]

/-! ## A skip among lines -/

open LineStream LineStream.Transcript

theorem result_ofTranscript (t : Transcript) :
    (Pass.ofTranscript t).result =
      match t.failure with
      | some f => .error (.readFailed t.answered f)
      | none => .ok (Summary.ofOutcomes (t.lines.map ClassifiedLine.outcome)) := by
  rw [Pass.ofTranscript]
  cases t.failure with
  | some f => rfl
  | none => exact congrArg Except.ok (ofLines_eq t.lines)

/-- The result of a pass over lines. -/
def resultOfLines (lines : List (List UInt8)) : Except PassError Summary :=
  (Pass.ofTranscript (ofLines 0 lines)).result

theorem result_eq_resultOfLines {source : Source} (h : source.FaultFree) :
    (Pass.ofSource source).result = resultOfLines (universalLines source.bytes) := by
  rw [Pass.ofSource, transcript_eq_ofLines h, resultOfLines]

variable {before later : List (List UInt8)} {noise : List UInt8} {cause : SkipCause}

theorem resultOfLines_of_failure {f : ReadFailure} (h : (ofLines 0 before).failure = some f)
    (more : List (List UInt8)) :
    resultOfLines (before ++ more) = .error (.readFailed (ofLines 0 before).answered f) := by
  rw [resultOfLines, ofLines_append_of_failure h, result_ofTranscript, h]

theorem resultOfLines_of_whole (h : (ofLines 0 before).failure = none)
    (more : List (List UInt8)) :
    resultOfLines (before ++ more) =
      match (ofLines before.length more).failure with
      | some f => .error (.readFailed (ofLines before.length more).answered f)
      | none => .ok (Summary.ofOutcomes ((ofLines 0 before).lines.map ClassifiedLine.outcome ++
          (ofLines before.length more).lines.map ClassifiedLine.outcome)) := by
  rw [resultOfLines, ofLines_append_of_whole h, result_ofTranscript, Nat.zero_add, List.map_append]

theorem ofLines_skip (h : classify noise = .ok (.skipped cause)) (n : Nat)
    (later : List (List UInt8)) :
    (ofLines n (noise :: later)).lines.map ClassifiedLine.outcome =
        .skipped cause :: (ofLines n later).lines.map ClassifiedLine.outcome ∧
      (ofLines n (noise :: later)).failure = (ofLines n later).failure ∧
      (ofLines n (noise :: later)).answered = (ofLines n later).answered + 1 := by
  obtain ⟨amounts, failed, number⟩ := ofLines_shift n later
  rw [ofLines_cons_of_ok h, List.map_cons, amounts]
  exact ⟨rfl, failed, number⟩

theorem resultOfLines_insert_of_ok (h : classify noise = .ok (.skipped cause)) {summary : Summary}
    (result : resultOfLines (before ++ later) = .ok summary) :
    resultOfLines (before ++ noise :: later) =
      .ok { summary with skips := summary.skips.record cause } := by
  cases failed : (ofLines 0 before).failure with
  | some f =>
    rw [resultOfLines_of_failure failed] at result
    cases result
  | none =>
    obtain ⟨amounts, same, -⟩ := ofLines_skip h before.length later
    rw [resultOfLines_of_whole failed] at result
    rw [resultOfLines_of_whole failed, amounts, same, ofOutcomes_insert]
    cases final : (ofLines before.length later).failure with
    | some f =>
      rw [final] at result
      cases result
    | none =>
      rw [final] at result
      cases result
      rfl

theorem resultOfLines_insert_of_error (h : classify noise = .ok (.skipped cause))
    {error : PassError} (result : resultOfLines (before ++ later) = .error error) :
    ∃ number f, error = .readFailed number f ∧
      (number ≤ before.length → resultOfLines (before ++ noise :: later) = .error error) ∧
      (before.length < number →
        resultOfLines (before ++ noise :: later) = .error (.readFailed (number + 1) f)) := by
  cases failed : (ofLines 0 before).failure with
  | some f =>
    -- Both passes end before they reach the line.
    have place := (answered_of_failure failed).2
    rw [resultOfLines_of_failure failed] at result
    rw [resultOfLines_of_failure failed]
    cases result
    exact ⟨_, f, rfl, fun _ => rfl, fun past => by omega⟩
  | none =>
    obtain ⟨-, same, moved⟩ := ofLines_skip h before.length later
    rw [resultOfLines_of_whole failed] at result
    rw [resultOfLines_of_whole failed, same, moved]
    cases final : (ofLines before.length later).failure with
    | none =>
      rw [final] at result
      cases result
    | some f =>
      have place := (answered_of_failure final).1
      rw [final] at result
      cases result
      exact ⟨_, f, rfl, fun early => by omega, fun _ => rfl⟩

/-! ## A line among bytes -/

theorem universalLines_insert {a b : List UInt8} {line : List UInt8} (ends : EndsLine a)
    (apart : a.getLast? = some carriageReturn → line ≠ [] ∧ b.head? ≠ some lineFeed)
    (noFeed : lineFeed ∉ line) (noReturn : carriageReturn ∉ line) :
    universalLines (a ++ b) = universalLines a ++ universalLines b ∧
      universalLines (a ++ (line ++ [lineFeed] ++ b)) =
        universalLines a ++ line :: universalLines b := by
  have last : (line ++ [lineFeed]).getLast? = some lineFeed := List.getLast?_concat
  have lineEnds : EndsLine (line ++ [lineFeed]) := Or.inr (Or.inl last)
  have lineApart : PartsNoPair (line ++ [lineFeed]) b := by
    intro ret
    rw [last] at ret
    cases ret
  have frontApart : PartsNoPair a (line ++ [lineFeed] ++ b) := by
    intro ret first
    obtain ⟨c, rest, rfl⟩ := List.exists_cons_of_ne_nil (apart ret).1
    have feed : c = lineFeed := by simpa using first
    exact noFeed (feed ▸ List.mem_cons_self)
  constructor
  · exact universalLines_append ends fun ret => (apart ret).2
  · rw [universalLines_append ends frontApart, universalLines_append lineEnds lineApart,
      universalLines_feed (freeOfEnds_of_notMem noFeed noReturn)]
    rfl

/-! ## Passes -/

/-- **A skipped line more changes the skips alone**, and the number of the line of a failure that
comes after it. -/
theorem result_of_inserted_skip {source source' : Source} (h : source.FaultFree)
    (h' : source'.FaultFree) {a b : List UInt8} {noise : List Char} {cause : SkipCause}
    (bytes : source.bytes = a ++ b)
    (bytes' : source'.bytes = a ++ (Utf8.encode noise ++ [lineFeed] ++ b)) (ends : EndsLine a)
    (apart : a.getLast? = some carriageReturn → noise ≠ [] ∧ b.head? ≠ some lineFeed)
    (unbroken : Unbroken noise)
    (skipped : Outcome.ofLine (String.ofList noise) = .skipped cause) :
    (∀ summary, (Pass.ofSource source).result = .ok summary →
      ∃ summary', (Pass.ofSource source').result = .ok summary' ∧
        summary'.average = summary.average ∧ summary'.samples = summary.samples ∧
        summary.skips.OneMore cause summary'.skips) ∧
    ∀ error, (Pass.ofSource source).result = .error error →
      ∃ number f, error = .readFailed number f ∧
        (number ≤ (universalLines a).length → (Pass.ofSource source').result = .error error) ∧
        ((universalLines a).length < number →
          (Pass.ofSource source').result = .error (.readFailed (number + 1) f)) := by
  have told : classify (Utf8.encode noise) = .ok (.skipped cause) := by
    rw [classify_encode, skipped]
  have filled : a.getLast? = some carriageReturn →
      Utf8.encode noise ≠ [] ∧ b.head? ≠ some lineFeed := by
    intro ret
    obtain ⟨nonempty, first⟩ := apart ret
    refine ⟨fun empty => nonempty ?_, first⟩
    exact Utf8.encode_injective (empty.trans Utf8.encode_nil.symm)
  obtain ⟨lines, lines'⟩ := universalLines_insert ends filled unbroken.feed_notMem_encode
    unbroken.return_notMem_encode
  rw [result_eq_resultOfLines h, result_eq_resultOfLines h', bytes, bytes', lines, lines']
  constructor
  · intro summary result
    exact ⟨_, resultOfLines_insert_of_ok told result, rfl, rfl, Skips.oneMore_iff.mpr rfl⟩
  · intro error result
    exact resultOfLines_insert_of_error told result

/-- A list after a carriage return, and then a record or bytes that are no text. -/
theorem result_of_inserted_list :
    let a := Utf8.encode "\x7b\"AverageLatency\": 4\x7d\r".toList
    let list := "[]".toList
    let record := Utf8.encode "\x7b\"AverageLatency\": 6\x7d".toList
    let result := fun bytes => (Pass.ofSource [.buffer bytes]).result
    EndsLine a ∧ Outcome.ofLine (String.ofList list) = .skipped .notAnObject ∧
      (∃ summary, result (a ++ (Utf8.encode list ++ [lineFeed] ++ record)) = .ok summary ∧
        summary.samples = 2 ∧ summary.skips = ⟨0, 0, 1, 0, 0⟩) ∧
      ∃ f, result (a ++ [0xFF]) = .error (.readFailed 2 f) ∧
        result (a ++ (Utf8.encode list ++ [lineFeed] ++ [0xFF])) = .error (.readFailed 3 f) := by
  intro a list record result
  have ends : EndsLine a := Or.inr (Or.inr (by decide +kernel))
  have skipped : Outcome.ofLine (String.ofList list) = .skipped .notAnObject := by decide +kernel
  have free : ∀ bytes, Source.FaultFree [.buffer bytes] := by
    intro bytes
    exact List.forall_mem_singleton.mpr rfl
  have inserted := fun (b : List UInt8) (apart : b.head? ≠ some lineFeed) =>
    result_of_inserted_skip (free (a ++ b)) (free (a ++ (Utf8.encode list ++ [lineFeed] ++ b)))
      (List.append_nil _) (List.append_nil _) ends (fun _ => ⟨by decide +kernel, apart⟩)
      (by decide +kernel) skipped
  have lines : universalLines (Source.bytes [.buffer (a ++ record)]) =
      ["\x7b\"AverageLatency\": 4\x7d".toList, "\x7b\"AverageLatency\": 6\x7d".toList].map
        Utf8.encode := by
    decide +kernel
  obtain ⟨summary, passed, -, samples, skips⟩ :=
    (inserted record (by decide +kernel)).1 _ (result_of_faultFree (free (a ++ record)) lines)
  obtain ⟨f, failed⟩ : ∃ f, result (a ++ [0xFF]) = .error (.readFailed 2 f) := by
    refine ⟨⟨.invalidData, (Utf8.Fault.invalid 0 1).message⟩, ?_⟩
    show (Pass.ofSource _).result = _
    rw [result_eq_resultOfLines (free _)]
    decide +kernel
  obtain ⟨number, g, same, -, moved⟩ := (inserted [0xFF] (by decide)).2 _ failed
  cases same
  refine ⟨ends, skipped, ⟨summary, passed, ?_, ?_⟩, f, failed, moved (by decide +kernel)⟩
  · rw [samples]
    decide +kernel
  · rw [Skips.oneMore_iff.mp skips]
    decide +kernel

end LatencyLog
