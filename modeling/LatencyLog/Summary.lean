import LatencyLog.Average
import LatencyLog.LineStream

/-! # Summaries

* `Skips`: how many lines were skipped, by cause.
* `LogEvent`: what is logged about a pass over an input.
* `Summary`: the average of the samples of an input, their count, and the skipped lines.
* `PassError`: why there is no summary, and the message that says so.
* `Pass`: the summary of an input or an error, and the log. The first failure to read ends a pass.
-/

namespace LatencyLog

set_option autoImplicit false

/-! ## Skipped lines -/

structure Skips where
  blank : Nat
  malformed : Nat
  notAnObject : Nat
  missingField : Nat
  nonNumeric : Nat
  deriving DecidableEq

namespace Skips

def empty : Skips := ⟨0, 0, 0, 0, 0⟩

def record (s : Skips) : SkipCause → Skips
  | .blank => { s with blank := s.blank + 1 }
  | .malformed _ => { s with malformed := s.malformed + 1 }
  | .notAnObject => { s with notAnObject := s.notAnObject + 1 }
  | .missingField => { s with missingField := s.missingField + 1 }
  | .nonNumeric => { s with nonNumeric := s.nonNumeric + 1 }

def total (s : Skips) : Nat :=
  s.blank + s.malformed + s.notAnObject + s.missingField + s.nonNumeric

def ofCauses (causes : List SkipCause) : Skips := causes.foldl record empty

end Skips

namespace ClassifiedLine

def sample? (line : ClassifiedLine) : Option Int128 :=
  match line.outcome with
  | .sample value => some value
  | .skipped _ => none

def skipCause? (line : ClassifiedLine) : Option SkipCause :=
  match line.outcome with
  | .sample _ => none
  | .skipped cause => some cause

end ClassifiedLine

/-! ## Log -/

inductive LogEvent where
  | skippingLine (line : Nat) (cause : SkipCause)
  | inputExhausted (lines samples skipped : Nat)
  deriving DecidableEq

def LogEvent.message : LogEvent → String
  | skippingLine _ _ => "skipping line"
  | inputExhausted _ _ _ => "input exhausted"

def ClassifiedLine.logEvent? (line : ClassifiedLine) : Option LogEvent :=
  line.skipCause?.map (LogEvent.skippingLine line.number)

/-! ## Summaries -/

structure Summary where
  average : Average
  samples : Nat
  skips : Skips
  deriving DecidableEq

def Summary.ofLines (lines : List ClassifiedLine) : Summary :=
  let tally := Tally.empty.extend (lines.filterMap ClassifiedLine.sample?)
  ⟨tally.average, tally.count, Skips.ofCauses (lines.filterMap ClassifiedLine.skipCause?)⟩

/-! ## Passes -/

inductive PassError where
  | cannotOpen (path : String) (failure : ReadFailure)
  | readFailed (line : Nat) (failure : ReadFailure)
  deriving DecidableEq

def PassError.message : PassError → String
  | cannotOpen path failure => "cannot open " ++ path ++ ": " ++ failure.message
  | readFailed line failure => "read failed at line " ++ toString line ++ ": " ++ failure.message

structure Pass where
  log : List LogEvent
  result : Except PassError Summary

namespace Pass

/-- The pass that a transcript amounts to. The end of the input is logged after its last line, and
a failure is not logged. -/
def ofTranscript (t : LineStream.Transcript) : Pass :=
  let skipped := t.lines.filterMap ClassifiedLine.logEvent?
  match t.failure with
  | some failure => ⟨skipped, .error (.readFailed t.answered failure)⟩
  | none =>
    let summary := Summary.ofLines t.lines
    ⟨skipped ++ [.inputExhausted t.answered summary.samples summary.skips.total], .ok summary⟩

def ofSource (source : Source) : Pass := ofTranscript (LineStream.ofSource source).transcript

/-- The pass over what an attempt to open a path gives. -/
def ofOpened (path : String) : Except ReadFailure Source → Pass
  | .ok source => ofSource source
  | .error failure => ⟨[], .error (.cannotOpen path failure)⟩

end Pass

end LatencyLog
