import LatencyLog.Json.Fault
import LatencyLog.Json.Value
import LatencyLog.Text.Digits

/-! # Number literals

A number literal is read one character at a time.

* `Json.Literal`: what a literal begun amounts to: a significand below `2 ^ 64` at a power of ten,
  and the part of the literal that has been reached.
* `Json.Literal.step`: the literal with one more character, or that the character ends it.
* `Json.scaled?`: the binary64 number of a significand at a power of ten. It multiplies or
  divides the nearest number to the significand by that power, so it may be off the nearest number
  to the whole.
* `Json.Literal.number`: the value of a literal that has ended.
-/

namespace LatencyLog.Json

set_option autoImplicit false

/-! ## Scaling by powers of ten -/

/-- The greatest power of ten below infinity has this exponent. -/
def maxPower : Nat := 308

/-- The quotient by `10 ^ (maxPower * times + last)`, one power at a time until it is zero. -/
def divideDown (last : Nat) (times : Nat) (a : Binary64) : Binary64 :=
  match times with
  | 0 => a.div (Binary64.powerOfTen last)
  | more + 1 =>
    if a.isZero then a else divideDown last more (a.div (Binary64.powerOfTen maxPower))

/-- The product with `10 ^ exponent`, unless it is too large for a finite number. -/
def multiplyUp? (exponent : Nat) (a : Binary64) : Option Binary64 :=
  if exponent ≤ maxPower then
    let product := a.mul (Binary64.powerOfTen exponent)
    if product.isInfinite then none else some product
  else if a.isZero then some a
  else none

/-- The number of a significand at a power of ten, unless it is too large. -/
def scaled? (significand : Nat) (exponent : Int) : Option Binary64 :=
  let a := Binary64.ofInt significand
  match exponent with
  | .ofNat n => multiplyUp? n a
  | .negSucc n => some (divideDown (n % maxPower + 1) (n / maxPower) a)

/-! ## Literals -/

inductive Part where
  | sign
  /-- After a zero that nothing stands before. -/
  | zero
  /-- Among the digits before the point, all of them in the significand. -/
  | whole
  /-- Among the digits before the point that the significand has no room for. -/
  | wholeDropped
  | point
  /-- Among the digits after the point, as long as the significand takes them. -/
  | fraction
  /-- Among the digits after the point, after one that the significand has no room for. -/
  | fractionDropped
  | mark
  | markSign (negative : Bool)
  | power (negative : Bool) (value : Nat)
  /-- Among the digits of an exponent so large that the literal is zero. -/
  | vanished
  deriving DecidableEq

/-- A number literal begun: its sign, the part reached, and a significand at a power of ten. -/
structure Literal where
  negative : Bool
  part : Part
  significand : Nat
  exponent : Int
  deriving DecidableEq

namespace Literal

def minus : Literal := ⟨true, .sign, 0, 0⟩

def firstDigit (negative : Bool) (d : Nat) : Literal :=
  ⟨negative, if d = 0 then .zero else .whole, d, 0⟩

/-- The significand below `2 ^ 64` with one more digit, if that stays below it too. -/
def withDigit? (significand d : Nat) : Option Nat :=
  if significand * 10 + d < 2 ^ 64 then some (significand * 10 + d) else none

/-- The greatest exponent that is read as it is written. -/
def maxExponent : Nat := 2 ^ 31 - 1

/-! ## One more character -/

/-- A literal with its whole part read, and the character after that. -/
def afterWhole (l : Literal) (c : Char) : Option Literal :=
  if c = '.' then some { l with part := .point }
  else if c = 'e' ∨ c = 'E' then some { l with part := .mark }
  else none

/-- A literal with its fraction read, and the character after that. -/
def afterFraction (l : Literal) (c : Char) : Option Literal :=
  if c = 'e' ∨ c = 'E' then some { l with part := .mark } else none

def wholeDigit (l : Literal) (d : Nat) : Literal :=
  match withDigit? l.significand d with
  | some s => { l with significand := s }
  | none => { l with part := .wholeDropped, exponent := l.exponent + 1 }

def fractionDigit (l : Literal) (d : Nat) : Literal :=
  match withDigit? l.significand d with
  | some s => { l with part := .fraction, significand := s, exponent := l.exponent - 1 }
  | none => { l with part := .fractionDropped }

/-- A digit of the exponent. Beyond `maxExponent` the literal is zero, or out of range when the
exponent is positive and the significand is not zero. -/
def powerDigit (l : Literal) (negative : Bool) (value d : Nat) : Except Halt Literal :=
  if value * 10 + d ≤ maxExponent then .ok { l with part := .power negative (value * 10 + d) }
  else if negative = false ∧ l.significand ≠ 0 then .error ⟨.numberOutOfRange, 1⟩
  else .ok { l with part := .vanished }

/-- A literal with one more character; `none` if the character ends the literal. -/
def step (l : Literal) (c : Char) : Except Halt (Option Literal) :=
  match l.part, Text.digit? c with
  | .sign, some d => .ok (some (firstDigit l.negative d))
  | .sign, none => .error ⟨.invalidNumber, 1⟩
  | .zero, some _ => .error ⟨.invalidNumber, 1⟩
  | .zero, none => .ok (l.afterWhole c)
  | .whole, some d => .ok (some (l.wholeDigit d))
  | .whole, none => .ok (l.afterWhole c)
  | .wholeDropped, some _ => .ok (some { l with exponent := l.exponent + 1 })
  | .wholeDropped, none => .ok (l.afterWhole c)
  | .point, some d => .ok (some (l.fractionDigit d))
  | .point, none => .error ⟨.invalidNumber, 1⟩
  | .fraction, some d => .ok (some (l.fractionDigit d))
  | .fraction, none => .ok (l.afterFraction c)
  | .fractionDropped, some _ => .ok (some l)
  | .fractionDropped, none => .ok (l.afterFraction c)
  | .mark, some d => (l.powerDigit false 0 d).map some
  | .mark, none =>
    if c = '+' then .ok (some { l with part := .markSign false })
    else if c = '-' then .ok (some { l with part := .markSign true })
    else .error ⟨.invalidNumber, 1⟩
  | .markSign negative, some d => (l.powerDigit negative 0 d).map some
  | .markSign _, none => .error ⟨.invalidNumber, 1⟩
  | .power negative value, some d => (l.powerDigit negative value d).map some
  | .power _ _, none => .ok none
  | .vanished, some _ => .ok (some l)
  | .vanished, none => .ok none

/-! ## The value of a literal -/

/-- The integer nearest to `i` of those with 32 bits. -/
def clampExponent (i : Int) : Int := max (-2 ^ 31) (min i (2 ^ 31 - 1))

def signed (l : Literal) (a : Binary64) : Binary64 := if l.negative then a.neg else a

/-- The value of a literal without point and exponent. A negative one below `-2 ^ 63` is no
integer, and neither is the negative zero. -/
def integer (l : Literal) : Number :=
  if l.negative then
    if 1 ≤ l.significand ∧ l.significand ≤ 2 ^ 63 then .integer (-(l.significand : Int))
    else .real (Binary64.ofInt l.significand).neg
  else .integer l.significand

def real (l : Literal) (exponent : Int) : Except Cause Number :=
  match scaled? l.significand exponent with
  | some a => .ok (.real (l.signed a))
  | none => .error .numberOutOfRange

/-- The value of a literal that ends where it has come to. -/
def number (l : Literal) : Except Cause Number :=
  match l.part with
  | .sign => .error .endInValue
  | .zero => .ok l.integer
  | .whole => .ok l.integer
  | .wholeDropped => l.real l.exponent
  | .point => .error .endInValue
  | .fraction => l.real l.exponent
  | .fractionDropped => l.real l.exponent
  | .mark => .error .endInValue
  | .markSign _ => .error .endInValue
  | .power negative value =>
    l.real (clampExponent (if negative then l.exponent - value else l.exponent + value))
  | .vanished => .ok (.real (Binary64.zero l.negative))

end Literal

end LatencyLog.Json
