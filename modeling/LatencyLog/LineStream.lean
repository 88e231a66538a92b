import LatencyLog.Framing
import LatencyLog.Record
import LatencyLog.Text.Utf8

/-! # Streams of classified lines

* `ClassifiedLine`: a line of the input by its number, and what it amounts to.
* `LineStream`: a source that is read line by line.
* `LineStream.next`: the next line or failure, `none` at the end of the input. After a failure the
  stream goes on, with what the source delivers next.
* `LineStream.transcript`: the answers up to the first failure or the end of the input.

`weight_next_lt` is why a run over the answers ends: each of them uses up some of the source.
-/

namespace LatencyLog

set_option autoImplicit false

/-- A line of the input, numbered from 1, and what it amounts to. -/
structure ClassifiedLine where
  number : Nat
  outcome : Outcome
  deriving DecidableEq

/-- A source that is read line by line: the source that is left, how many lines and failures it has
answered, and whether a line feed that comes next belongs to the carriage return before it. -/
structure LineStream where
  source : Source
  answered : Nat
  afterReturn : Bool
  deriving DecidableEq

namespace LineStream

/-! ## Answers -/

def ofSource (source : Source) : LineStream := ⟨source, 0, false⟩

/-- What the bytes of a line amount to. Bytes that are no UTF-8 text are a failure to read. -/
def classify (bytes : List UInt8) : Except ReadFailure Outcome :=
  match Utf8.decode bytes with
  | .ok text => .ok (Outcome.ofLine (String.ofList text))
  | .error fault => .error ⟨.invalidData, fault.message⟩

/-- The next line or failure, and the stream after it. -/
def next (s : LineStream) : Option (Except ReadFailure ClassifiedLine) × LineStream :=
  let g := gather s.afterReturn [] s.source
  match g.reading with
  | .exhausted => (none, ⟨g.source, s.answered, g.afterReturn⟩)
  | .failed f => (some (.error f), ⟨g.source, s.answered + 1, g.afterReturn⟩)
  | .line bytes =>
    (some ((classify bytes).map fun outcome => ⟨s.answered + 1, outcome⟩),
      ⟨g.source, s.answered + 1, g.afterReturn⟩)

/-- An answer other than the end of the input uses up some of the source. -/
theorem weight_next_lt {s : LineStream} {answer : Except ReadFailure ClassifiedLine}
    {after : LineStream} (h : s.next = (some answer, after)) :
    after.source.weight < s.source.weight := by
  have used := weight_gather_lt s.afterReturn [] s.source
  unfold next at h
  dsimp only at h
  split at h
  · cases h
  next reading =>
    cases h
    rw [reading] at used
    simpa using used
  next bytes reading =>
    cases h
    rw [reading] at used
    simpa using used

/-! ## Transcripts -/

/-- The lines up to the first failure or the end of the input, that failure if there is one, and
how many lines and failures were answered in all. -/
structure Transcript where
  lines : List ClassifiedLine
  failure : Option ReadFailure
  answered : Nat
  deriving DecidableEq

/-- The transcript of a stream after the lines `done`, the last of them first. -/
def transcriptFrom (done : List ClassifiedLine) (s : LineStream) : Transcript :=
  match h : s.next with
  | (none, after) => ⟨done.reverse, none, after.answered⟩
  | (some (.error f), after) => ⟨done.reverse, some f, after.answered⟩
  | (some (.ok line), after) =>
    have : after.source.weight < s.source.weight := weight_next_lt h
    transcriptFrom (line :: done) after
termination_by s.source.weight

theorem transcriptFrom_of_end {done : List ClassifiedLine} {s after : LineStream}
    (h : s.next = (none, after)) :
    transcriptFrom done s = ⟨done.reverse, none, after.answered⟩ := by
  rw [transcriptFrom]
  split <;> simp_all

theorem transcriptFrom_of_failure {done : List ClassifiedLine} {s after : LineStream}
    {f : ReadFailure} (h : s.next = (some (.error f), after)) :
    transcriptFrom done s = ⟨done.reverse, some f, after.answered⟩ := by
  rw [transcriptFrom]
  split <;> simp_all

theorem transcriptFrom_of_line {done : List ClassifiedLine} {s after : LineStream}
    {line : ClassifiedLine} (h : s.next = (some (.ok line), after)) :
    transcriptFrom done s = transcriptFrom (line :: done) after := by
  rw [transcriptFrom]
  split <;> simp_all

/-- The answers of a stream up to the first failure or the end of the input. -/
def transcript (s : LineStream) : Transcript := transcriptFrom [] s

end LineStream

end LatencyLog
