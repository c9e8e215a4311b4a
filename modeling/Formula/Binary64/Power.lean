import Formula.Binary64.Elementary

/-!
# Powers

`Binary64.pow` raises a number to any exponent. The power of the base's magnitude is the
exponential of the exponent times the logarithm, or a limit of it; the sign is negative
exactly if the base is negative and the exponent is an odd integer.

Three rules come first. The exponent zero gives one for every base, and the base one gives
one for every exponent, even if the other operand is not a number; and a negative base has no
real power with a finite exponent that is not an integer.
-/

namespace Formula.Binary64

/-- Is the number an integer? Infinities are not counted. -/
def isInteger : Binary64 → Bool
  | .finite _ m => m.units % unitsPerOne == 0
  | _ => false

/-- Is the number an odd integer? -/
def isOddInteger : Binary64 → Bool
  | .finite _ m => m.units % unitsPerOne == 0 && m.units / unitsPerOne % 2 == 1
  | _ => false

/-- Is the number negative and finite, but not zero? -/
def isBelowZero : Binary64 → Bool
  | .finite s m => s && m.units != 0
  | _ => false

/-- The power of a base's magnitude, given the sign of the answer. -/
def magnitudePower (negative : Bool) : Binary64 → Binary64 → Binary64
  | .finite _ a, .finite t b =>
    if a.units = 0 then if t then .infinite negative else zero negative
    else
      let ln := FixedPoint.logarithm basePlaces a.units 1074
      ofExponential negative basePlaces (signed t b.units * ln / unitsPerOne)
  | .finite _ a, .infinite t =>
    if a.units = unitsPerOne then ofNat negative 1
    else if decide (unitsPerOne < a.units) = t then zero negative
    else .infinite negative
  | .infinite _, .finite t _ => if t then zero negative else .infinite negative
  | .infinite _, .infinite t => if t then zero negative else .infinite negative
  | _, _ => .nan

/-- The first number raised to the second. -/
def pow (x y : Binary64) : Binary64 :=
  if y.isZero ∨ x.equal one then one
  else if x.isBelowZero ∧ ¬ y.isInteger ∧ y.scaled?.isSome then .nan
  else magnitudePower (x.isNegative && y.isOddInteger) x y

end Formula.Binary64
