import LatencyLog.Binary64.Basic

/-! # Shortest decimals that read back

The decimal with the fewest digits among those nearest to a given binary64 number.

* `Decimal`: a number of decimal digits at a power of ten. It reads as the magnitude nearest to it.
* `Decimal.onGrid?`: of the two multiples of a power of ten around a magnitude, the nearer one that
  reads as that magnitude; of two equally near the larger.
* `Decimal.shortest`: the first of these on the grids of one digit, two digits and so on. If any
  decimal on a grid reads as the magnitude, then so does one of the two around it, and seventeen
  digits always suffice.
-/

namespace LatencyLog

set_option autoImplicit false

/-- The number `digits * 10 ^ exponent`. -/
structure Decimal where
  digits : Nat
  exponent : Int
  deriving DecidableEq

namespace Decimal

def magnitude (d : Decimal) : Nat :=
  Binary64.nearest (d.digits * Nat.pow 10 d.exponent.toNat) (Nat.pow 10 (-d.exponent).toNat)

/-! ## Grids -/

/-- The value of a magnitude in units of `10 ^ exponent`, as a numerator. -/
def gridNumerator (m : Nat) (exponent : Int) : Nat :=
  Binary64.units m * Nat.pow 10 (-exponent).toNat

def gridDenominator (exponent : Int) : Nat := Binary64.unitsPerOne * Nat.pow 10 exponent.toNat

/-- The greatest multiple of `10 ^ exponent` that is at most the value of a magnitude. -/
def below (m : Nat) (exponent : Int) : Decimal :=
  ⟨gridNumerator m exponent / gridDenominator exponent, exponent⟩

/-- The least multiple of `10 ^ exponent` that is more than the value of a magnitude. -/
def above (m : Nat) (exponent : Int) : Decimal := ⟨(below m exponent).digits + 1, exponent⟩

/-- The value of a magnitude lies nearer to the multiple below it than to the one above it. -/
def belowIsNearer (m : Nat) (exponent : Int) : Bool :=
  decide (2 * gridNumerator m exponent <
    (2 * (below m exponent).digits + 1) * gridDenominator exponent)

/-- The multiple of `10 ^ exponent` nearest to a magnitude among those that read as it. -/
def onGrid? (m : Nat) (exponent : Int) : Option Decimal :=
  let low := below m exponent
  let high := above m exponent
  if low.magnitude = m then
    if high.magnitude = m && !belowIsNearer m exponent then some high else some low
  else if high.magnitude = m then some high
  else none

/-! ## The shortest decimal -/

/-- The count of places before the point, `k` with `10 ^ (k - 1) ≤ v < 10 ^ k`, for the value `v`
of a magnitude. The least value `2 ^ -1074` lies above `10 ^ -324`, so it is the count of digits
of `v * 10 ^ 324`, less 324. -/
def places (m : Nat) : Int :=
  ((Nat.toDigits 10 (Binary64.units m * 10 ^ 324 / Binary64.unitsPerOne)).length : Int) - 324

/-- The decimal of fewest digits that reads as a finite magnitude other than zero, and of those the
nearest to it: the first decimal on seventeen grids, from that of the first place down. -/
def shortest (m : Nat) : Decimal :=
  ((List.range 17).findSome? fun (finer : Nat) => onGrid? m (places m - 1 - finer)).getD
    (below m (places m - 17))

/-! ## Digits -/

def significant (d : Decimal) : List Char :=
  ((Nat.toDigits 10 d.digits).reverse.dropWhile (· == '0')).reverse

/-- Where the point stands, counted in places from before the first digit. -/
def point (d : Decimal) : Int := (Nat.toDigits 10 d.digits).length + d.exponent

end Decimal

end LatencyLog
