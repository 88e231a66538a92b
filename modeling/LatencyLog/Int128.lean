import LatencyLog.Text.Digits

/-! # Integers of 128 bits

Latency samples and their running sum.

* `Int128`: an integer between `-2 ^ 127` and `2 ^ 127 - 1`.
* `Int128.clamp`: the nearest such integer to any integer.
* `Int128.add`: the sum, kept at a bound when it lies beyond it.
* `Int128.ofDecimal?`: the integer that a signed run of decimal digits denotes.
-/

namespace LatencyLog

set_option autoImplicit false

-- A power with a numeral for its exponent is the core library's, whatever else is loaded.
attribute [default_instance 20000] instPowNat

/-- An integer of 128 bits. -/
structure Int128 where
  toInt : Int
  minValue_le : -2 ^ 127 ≤ toInt
  le_maxValue : toInt ≤ 2 ^ 127 - 1
  deriving DecidableEq

namespace Int128

theorem ext_toInt {a b : Int128} (h : a.toInt = b.toInt) : a = b := by
  cases a
  cases b
  cases h
  rfl

/-! ## Bounds -/

/-- The nearest integer of 128 bits. -/
def clamp (i : Int) : Int128 where
  toInt := max (-2 ^ 127) (min i (2 ^ 127 - 1))
  minValue_le := by omega
  le_maxValue := by omega

/-- The integer itself, when it has at most 128 bits. -/
def ofInt? (i : Int) : Option Int128 :=
  if h : -2 ^ 127 ≤ i ∧ i ≤ 2 ^ 127 - 1 then some ⟨i, h.1, h.2⟩ else none

def zero : Int128 := clamp 0

theorem toInt_clamp (i : Int) : (clamp i).toInt = max (-2 ^ 127) (min i (2 ^ 127 - 1)) := rfl

theorem toInt_clamp_of_mem {i : Int} (lower : -2 ^ 127 ≤ i) (upper : i ≤ 2 ^ 127 - 1) :
    (clamp i).toInt = i := by
  rw [toInt_clamp]
  omega

theorem clamp_toInt (a : Int128) : clamp a.toInt = a :=
  ext_toInt (toInt_clamp_of_mem a.minValue_le a.le_maxValue)

theorem ofInt?_eq_some_iff {i : Int} {a : Int128} : ofInt? i = some a ↔ a.toInt = i := by
  unfold ofInt?
  constructor
  · intro h
    split at h
    · cases h
      rfl
    · cases h
  · intro h
    subst h
    rw [dif_pos ⟨a.minValue_le, a.le_maxValue⟩]

/-! ## Sum -/

/-- The sum, kept at the bound that it passes. -/
def add (a b : Int128) : Int128 := clamp (a.toInt + b.toInt)

theorem toInt_add (a b : Int128) :
    (a.add b).toInt = max (-2 ^ 127) (min (a.toInt + b.toInt) (2 ^ 127 - 1)) := rfl

/-! ## Decimal notation -/

/-- The integer of 128 bits written as an optional sign and one or more ASCII digits. -/
def ofDecimal? : List Char → Option Int128
  | '-' :: digits => (Text.ofDigits? (2 ^ 127) digits).bind fun n => ofInt? (-(n : Int))
  | '+' :: digits => (Text.ofDigits? (2 ^ 127) digits).bind fun n => ofInt? n
  | digits => (Text.ofDigits? (2 ^ 127) digits).bind fun n => ofInt? n

end Int128

end LatencyLog
