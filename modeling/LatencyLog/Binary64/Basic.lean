/-! # Binary64 numbers

The numbers of the binary64 interchange format, with the four operations that averaging and
number literals need.

* `Binary64`: a sign and a magnitude. The magnitude is the place of the absolute value in the
  ascending list of all absolute values, so neighbouring numbers have neighbouring magnitudes.
* `Binary64.units`: the absolute value as a whole number of the least positive one, `2 ^ -1074`.
* `Binary64.nearest`: the magnitude of the number nearest to a fraction, a tie going to the even
  magnitude. Every operation is its exact result, rounded by this function.
-/

namespace LatencyLog

set_option autoImplicit false

-- A power with a numeral for its exponent is the core library's, whatever else is loaded.
attribute [default_instance 20000] instPowNat

/-- A binary64 number. A magnitude above `2047 * 2 ^ 52` is no number. -/
structure Binary64 where
  negative : Bool
  magnitude : Nat
  magnitude_lt : magnitude < 2 ^ 63
  deriving DecidableEq

namespace Binary64

/-! ## Magnitudes -/

def infinity : Nat := 2047 * 2 ^ 52

/-- The value of a magnitude in units of `2 ^ -1074`: below `2 ^ 52` the magnitude itself, above
it a significand of 53 bits whose unit doubles with every `2 ^ 52` magnitudes. -/
def units (m : Nat) : Nat :=
  if m < 2 ^ 52 then m else (2 ^ 52 + m % 2 ^ 52) * Nat.pow 2 (m / 2 ^ 52 - 1)

def unitsPerOne : Nat := 2 ^ 1074

/-- The greatest magnitude whose value is at most `x` units. Dropping `shift` bits leaves `x` the 53
bits of a significand, or all its bits where it has no more than that, and every bit dropped doubles
the unit. -/
def magnitudeBelow (x : Nat) : Nat :=
  let shift := x.log2 - 52
  shift * 2 ^ 52 + x / Nat.pow 2 shift

/-- The magnitude whose value is nearest to `num / den`. Halfway between two magnitudes it is the
even one, and from halfway between the greatest finite value and `2 ^ 1024` on it is infinity. -/
def nearest (num den : Nat) : Nat :=
  let x := num * unitsPerOne
  let below := magnitudeBelow (x / den)
  let halfway := den * (units below + units (below + 1))
  let rounded :=
    if 2 * x < halfway then below
    else if halfway < 2 * x then below + 1
    else below + below % 2
  min rounded infinity

theorem nearest_le_infinity (num den : Nat) : nearest num den ≤ infinity :=
  Nat.min_le_right _ _

theorem nearest_lt (num den : Nat) : nearest num den < 2 ^ 63 :=
  Nat.lt_of_le_of_lt (nearest_le_infinity num den) (by decide)

/-! ## Numbers -/

def round (negative : Bool) (num den : Nat) : Binary64 :=
  ⟨negative, nearest num den, nearest_lt num den⟩

def zero (negative : Bool) : Binary64 := ⟨negative, 0, by decide⟩

def ofInt (i : Int) : Binary64 := round (decide (i < 0)) i.natAbs 1

def powerOfTen (n : Nat) : Binary64 := round false (Nat.pow 10 n) 1

def isZero (a : Binary64) : Bool := a.magnitude == 0

def isInfinite (a : Binary64) : Bool := a.magnitude == infinity

def isNaN (a : Binary64) : Bool := decide (infinity < a.magnitude)

def isFinite (a : Binary64) : Bool := decide (a.magnitude < infinity)

def absUnits (a : Binary64) : Nat := units a.magnitude

def neg (a : Binary64) : Binary64 := { a with negative := !a.negative }

/-- The product of two finite numbers. -/
def mul (a b : Binary64) : Binary64 :=
  round (a.negative ^^ b.negative) (a.absUnits * b.absUnits) (unitsPerOne * unitsPerOne)

/-- The quotient of two finite numbers, the second of them not zero. -/
def div (a b : Binary64) : Binary64 :=
  round (a.negative ^^ b.negative) a.absUnits b.absUnits

/-- The integer next to a finite number on the way to zero. -/
def truncate (a : Binary64) : Int :=
  let whole : Int := (a.absUnits / unitsPerOne : Nat)
  if a.negative then -whole else whole

/-! ## Interchange format -/

/-- The 64 bits of the interchange format, as a number. -/
def toBits (a : Binary64) : Nat := (if a.negative then 2 ^ 63 else 0) + a.magnitude

def ofBits (bits : Nat) : Binary64 :=
  ⟨decide (2 ^ 63 ≤ bits % 2 ^ 64), bits % 2 ^ 63, Nat.mod_lt _ (by decide)⟩

theorem ofBits_toBits (a : Binary64) : ofBits a.toBits = a := by
  obtain ⟨negative, magnitude, h⟩ := a
  cases negative <;> simp only [ofBits, toBits, mk.injEq] <;> simp <;> omega

theorem toBits_ofBits {bits : Nat} (h : bits < 2 ^ 64) : (ofBits bits).toBits = bits := by
  simp only [ofBits, toBits, decide_eq_true_eq]
  split <;> omega

end Binary64

end LatencyLog
