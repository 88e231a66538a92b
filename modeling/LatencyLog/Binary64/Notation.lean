import LatencyLog.Binary64.Shortest

/-! # The text of a binary64 number

* `Binary64.positional`: digits with a point among them, at least one digit on each side of it.
* `Binary64.scientific`: one digit, the others after a point, and an exponent with a sign and at
  least two digits.
* `Binary64.text`: the shortest decimal that reads back, positional for zero and from `10 ^ -4` up
  to `10 ^ 16`, scientific elsewhere.
-/

namespace LatencyLog.Binary64

set_option autoImplicit false

/-! ## Layouts -/

/-- Digits with a point after the first `point` of them, filled with zeros where there are none. -/
def positional (digits : List Char) (point : Int) : List Char :=
  if point ≤ 0 then
    '0' :: '.' :: (List.replicate (-point).toNat '0' ++ digits)
  else if digits.length ≤ point.toNat then
    digits ++ List.replicate (point.toNat - digits.length) '0' ++ ['.', '0']
  else
    digits.take point.toNat ++ '.' :: digits.drop point.toNat

/-- A decimal exponent: its sign and at least two digits. -/
def exponentText (exponent : Int) : List Char :=
  let digits := Nat.toDigits 10 exponent.natAbs
  (if exponent < 0 then '-' else '+') :: (List.replicate (2 - digits.length) '0' ++ digits)

/-- Digits with a point after the first of them, if there are others, and an exponent. -/
def scientific (digits : List Char) (point : Int) : List Char :=
  digits.take 1 ++ (if digits.length ≤ 1 then [] else '.' :: digits.drop 1) ++
    'e' :: exponentText (point - 1)

/-! ## Text -/

/-- The magnitudes written positionally: zero, and values from `10 ^ -4` up to `10 ^ 16`. -/
def isPositional (m : Nat) : Bool :=
  m == 0 || (decide (unitsPerOne ≤ units m * 10 ^ 4) && decide (units m < 10 ^ 16 * unitsPerOne))

def magnitudeText (m : Nat) : List Char :=
  if infinity < m then ['N', 'a', 'N']
  else if m = infinity then ['i', 'n', 'f']
  else if m = 0 then positional ['0'] 1
  else
    let d := Decimal.shortest m
    if isPositional m then positional d.significant d.point else scientific d.significant d.point

/-- The text of a number. A magnitude that is no number has no sign. -/
def text (a : Binary64) : String :=
  String.ofList (if a.negative && !a.isNaN then '-' :: magnitudeText a.magnitude
    else magnitudeText a.magnitude)

end LatencyLog.Binary64
