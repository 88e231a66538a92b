/-! # Runs of decimal digits

* `digit?`: the digit that an ASCII character stands for.
* `ofDigits?`: the number that one or more ASCII digits denote, if it does not pass a limit. No
  number beyond the limit is formed, so a long run costs no more than its length.
-/

namespace LatencyLog.Text

set_option autoImplicit false

/-- The digit that an ASCII character stands for. -/
def digit? (c : Char) : Option Nat :=
  if c.isDigit then some (c.toNat - '0'.toNat) else none

/-- The number that `value` becomes when digits are written after it, if it stays within
`limit`. -/
def appendDigits? (limit : Nat) (value : Nat) : List Char → Option Nat
  | [] => some value
  | c :: rest =>
    match digit? c with
    | none => none
    | some d =>
      if value * 10 + d ≤ limit then appendDigits? limit (value * 10 + d) rest else none

/-- The number that one or more ASCII digits denote, if it is at most `limit`. -/
def ofDigits? (limit : Nat) : List Char → Option Nat
  | [] => none
  | digits => appendDigits? limit 0 digits

end LatencyLog.Text
