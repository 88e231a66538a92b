import LatencyLog.Int128
import LatencyLog.Json.Reader
import LatencyLog.Text.Blank

/-! # Records

A line of the log is a record with a latency, or it is skipped.

* `SkipCause`: why a line gives no sample, and the message that says so.
* `Outcome`: a sample or a skip.
* `latency?`: the sample of a latency value. Integers are taken as they are, reals cut off toward
  zero and kept within 128 bits, truth values are 1 and 0, and a text may hold an integer between
  blanks.
* `Outcome.ofLine`: the outcome of a line.
-/

namespace LatencyLog

set_option autoImplicit false

/-! ## Outcomes -/

def latencyKey : String := "AverageLatency"

inductive SkipCause where
  | blank
  | malformed (detail : String)
  | notAnObject
  | missingField
  | nonNumeric
  deriving DecidableEq

def SkipCause.message : SkipCause → String
  | blank => "blank line"
  | malformed detail => "invalid JSON: " ++ detail
  | notAnObject => "record is not a JSON object"
  | missingField => "record has no \"" ++ latencyKey ++ "\" field"
  | nonNumeric => "\"" ++ latencyKey ++ "\" is not an integer-like value"

inductive Outcome where
  | sample (value : Int128)
  | skipped (cause : SkipCause)
  deriving DecidableEq

/-! ## Latency values -/

/-- The sample of a latency value, if it has one. -/
def latency? : Json.Value → Option Int128
  | .number (.integer i) => some (Int128.clamp i)
  | .number (.real a) => some (Int128.clamp a.truncate)
  | .text t => Int128.ofDecimal? (Text.trim t.toList)
  | .bool b => some (Int128.clamp (if b then 1 else 0))
  | .null => none
  | .list _ => none
  | .object _ => none

/-! ## Lines -/

namespace Outcome

/-- The outcome of a record, given by its members. The last member of the key counts. -/
def ofMembers (members : List (String × Json.Value)) : Outcome :=
  match Json.lastMember? latencyKey members with
  | none => .skipped .missingField
  | some v =>
    match latency? v with
    | some latency => .sample latency
    | none => .skipped .nonNumeric

/-- The outcome of a JSON text, given by its value. -/
def ofValue : Json.Value → Outcome
  | .object members => ofMembers members
  | _ => .skipped .notAnObject

/-- The outcome of a line without its line end. -/
def ofLine (line : String) : Outcome :=
  if line.toList.all Text.isBlank then .skipped .blank
  else
    match Json.read line.toList with
    | .ok v => ofValue v
    | .error fault => .skipped (.malformed fault.message)

end Outcome

end LatencyLog
