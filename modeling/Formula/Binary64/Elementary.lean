import Formula.FixedPoint
import Formula.Binary64.Order
import Formula.Binary64.Arithmetic

/-!
# Elementary functions of binary numbers

The logarithms, the exponential, the circular functions and their inverses are computed in
fixed point far beyond the precision of the format and rounded to it. An answer is first
rounded to `guardBits` significant bits and then to the format's 53: an exact answer, and one
that is exactly half way between two numbers, are recovered by the first rounding from an
approximation, so that the second one treats them as what they are.

Each function has its limits at the infinities, and is not a number where it has no real
value. Those that are odd keep the sign of zero.
-/

namespace Formula.Binary64

open FixedPoint

/-- The significant bits that an approximate answer keeps before it is rounded. -/
def guardBits : Nat := 128

/-- The places of a computation whose argument needs no more of them. -/
def basePlaces : Nat := 320

/-- The places for an argument of a size far from one: as many more as its leading bit is
away from the point. A small angle keeps its significant bits so, and a large one leaves
enough of them behind when its turns have been taken out. -/
def Magnitude.places (m : Magnitude) : Nat :=
  basePlaces + (m.units.log2 - 1074) + (1074 - m.units.log2)

/-- The magnitude in fixed point. -/
def Magnitude.fixed (p : Nat) (m : Magnitude) : Int := m.units * unit p / unitsPerOne

/-- The number nearest to an approximation `n · 2 ^ e`. -/
def ofApproximate (negative : Bool) (n : Nat) (e : Int) : Binary64 :=
  let excess := n.log2 - (guardBits - 1)
  ofDyadic negative (roundHalfEven n (2 ^ excess)) (e + excess)

/-- The number nearest to one in fixed point. -/
def ofFixed (p : Nat) (z : Int) : Binary64 :=
  ofApproximate (decide (z < 0)) z.natAbs (-p)

/-- The number nearest to the exponential of one in fixed point, with the given sign. Beyond
the size of `exponentialLimit` the answer is infinite or zero. -/
def ofExponential (negative : Bool) (p : Nat) (x : Int) : Binary64 :=
  if exponentialLimit * unit p ≤ x then .infinite negative
  else if x ≤ -(exponentialLimit * unit p) then zero negative
  else
    let (mantissa, twos) := exponential p x
    ofApproximate negative mantissa.natAbs (twos - p)
where
  /-- The exponential of this number is beyond the largest finite one, and its reciprocal
  rounds to zero. -/
  exponentialLimit : Int := 1024

/-! ### Exponential and logarithms -/

/-- The exponential. -/
def exp : Binary64 → Binary64
  | .finite s m => ofExponential false basePlaces (signed s 1 * m.fixed basePlaces)
  | .infinite s => if s then zero false else .infinite false
  | .nan => .nan

/-- A logarithm, given in fixed point for positive magnitudes. -/
def logarithmBy (f : Magnitude → Int) : Binary64 → Binary64
  | .finite s m =>
    if m.units = 0 then .infinite true
    else if s then .nan
    else ofFixed basePlaces (f m)
  | .infinite s => if s then .nan else .infinite false
  | .nan => .nan

/-- The natural logarithm. -/
def ln : Binary64 → Binary64 :=
  logarithmBy fun m => logarithm basePlaces m.units 1074

/-- The logarithm to the base ten. -/
def log10 : Binary64 → Binary64 :=
  logarithmBy fun m =>
    ratio basePlaces (logarithm basePlaces m.units 1074) (logarithm basePlaces 10 0)

/-! ### Circular functions -/

/-- The sine. -/
def sin : Binary64 → Binary64
  | .finite s m =>
    if m.units = 0 then .finite s m
    else ofFixed m.places (signed s 1 * sine m.places (m.fixed m.places))
  | _ => .nan

/-- The cosine. -/
def cos : Binary64 → Binary64
  | .finite _ m => ofFixed m.places (cosine m.places (m.fixed m.places))
  | _ => .nan

/-- The tangent. -/
def tan : Binary64 → Binary64
  | .finite s m =>
    if m.units = 0 then .finite s m
    else
      let x := m.fixed m.places
      ofFixed m.places (signed s 1 * ratio m.places (sine m.places x) (cosine m.places x))
  | _ => .nan

/-! ### Their inverses -/

/-- The inverse sine of a magnitude of at most one, in fixed point. -/
def Magnitude.arcsine (p : Nat) (m : Magnitude) : Int :=
  let x := m.fixed p
  angle p x (squareRoot (unit p * unit p - x * x).toNat)

/-- The inverse sine. -/
def asin : Binary64 → Binary64
  | .finite s m =>
    if unitsPerOne < m.units then .nan
    else if m.units = 0 then .finite s m
    else ofFixed m.places (signed s 1 * m.arcsine m.places)
  | _ => .nan

/-- The inverse cosine. -/
def acos : Binary64 → Binary64
  | .finite s m =>
    if unitsPerOne < m.units then .nan
    else ofFixed m.places (pi m.places / 2 - signed s 1 * m.arcsine m.places)
  | _ => .nan

/-- The inverse tangent. -/
def atan : Binary64 → Binary64
  | .finite s m =>
    if m.units = 0 then .finite s m
    else ofFixed m.places (signed s 1 * angle m.places (m.fixed m.places) (unit m.places))
  | .infinite s => ofFixed basePlaces (signed s 1 * (pi basePlaces / 2))
  | .nan => .nan

end Formula.Binary64
