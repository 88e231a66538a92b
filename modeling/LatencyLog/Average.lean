import LatencyLog.Binary64.Notation
import LatencyLog.Int128

/-! # Averages of samples

* `Average`: the average of a list of samples, `empty` for the list without samples.
* `Tally`: the sum and the count of the samples pushed so far. The sum stays at a bound of its 128
  bits when a sample would carry it past that bound.
* `Average.ofSamples`: the average of a list of samples.
-/

namespace LatencyLog

set_option autoImplicit false

/-! ## Averages -/

/-- The average of a list of samples. -/
inductive Average where
  | empty
  | value (v : Binary64)
  deriving DecidableEq

namespace Average

/-- The average as a number; zero for the empty list. -/
def toBinary64 : Average → Binary64
  | empty => Binary64.zero false
  | value v => v

def isEmpty : Average → Bool
  | empty => true
  | value _ => false

/-- The printed average. That of an empty list is an integer; a value has a point or an
exponent. -/
def text : Average → String
  | empty => "0"
  | value v => v.text

end Average

/-! ## Sum and count -/

/-- The sum and the count of samples. -/
structure Tally where
  sum : Int128
  count : Nat
  deriving DecidableEq

namespace Tally

def empty : Tally := ⟨Int128.zero, 0⟩

def push (t : Tally) (sample : Int128) : Tally := ⟨t.sum.add sample, t.count + 1⟩

def extend (t : Tally) (samples : List Int128) : Tally := samples.foldl push t

/-- The sum over the count, each of them rounded to binary64 before the division is. -/
def average (t : Tally) : Average :=
  if t.count = 0 then .empty
  else .value ((Binary64.ofInt t.sum.toInt).div (Binary64.ofInt t.count))

theorem extend_append (t : Tally) (xs ys : List Int128) :
    t.extend (xs ++ ys) = (t.extend xs).extend ys := List.foldl_append

theorem count_extend (t : Tally) (samples : List Int128) :
    (t.extend samples).count = t.count + samples.length := by
  induction samples generalizing t with
  | nil => rfl
  | cons x xs ih =>
    have h := ih (t.push x)
    have step : (t.push x).count = t.count + 1 := rfl
    rw [step] at h
    simp only [extend, List.foldl_cons, List.length_cons] at h ⊢
    omega

end Tally

/-- The average of a list of samples. -/
def Average.ofSamples (samples : List Int128) : Average := (Tally.empty.extend samples).average

end LatencyLog
