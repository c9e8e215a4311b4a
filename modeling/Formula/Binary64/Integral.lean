import Formula.Integer
import Formula.Binary64.Arithmetic
import Formula.Binary64.Order

/-!
# Integral numbers

The three roundings to an integer (`Binary64.floor`, `Binary64.ceiling`, `Binary64.round`)
and the exact passage between the numbers and the integers of sixty-four bits.

A magnitude is rounded to a natural number, downward, upward or to the nearest with halves
going up; the sign says which of the first two is the floor, and it is kept, so that a
negative number between minus one and zero has a negative zero for its ceiling.

A number is taken for an integer of sixty-four bits (`Binary64.toInt64?`) if it is finite, has
nothing behind its point and lies between the bounds, of which the upper one is itself excluded.
-/

namespace Formula.Binary64

namespace Magnitude

/-- The magnitude's integral part. -/
def truncated (m : Magnitude) : Nat := m.units / unitsPerOne

/-- The least natural number that is not below the magnitude. -/
def raised (m : Magnitude) : Nat := (m.units + (unitsPerOne - 1)) / unitsPerOne

/-- The natural number nearest to the magnitude, the larger one for a half. -/
def rounded (m : Magnitude) : Nat := (2 * m.units + unitsPerOne) / (2 * unitsPerOne)

end Magnitude

/-- The greatest integral number that is not above the given one. -/
def floor : Binary64 → Binary64
  | .finite s m => ofNat s (if s then m.raised else m.truncated)
  | x => x

/-- The least integral number that is not below the given one. -/
def ceiling : Binary64 → Binary64
  | .finite s m => ofNat s (if s then m.truncated else m.raised)
  | x => x

/-- The integral number nearest to the given one, halves going away from zero. -/
def round : Binary64 → Binary64
  | .finite s m => ofNat s m.rounded
  | x => x

/-- The number nearest to an integer of sixty-four bits, a tie going to the even
significand. -/
def ofInt64 (n : Int64) : Binary64 := ofInt n.toInt

/-- The number without what is behind the point. -/
def trunc : Binary64 → Binary64
  | .finite s m => ofNat s m.truncated
  | x => x

/-- What is behind the point; not a number if the number is not finite. -/
def fraction (x : Binary64) : Binary64 := x.sub x.trunc

/-- The least number that is above all integers of sixty-four bits. -/
def int64Bound : Binary64 := ofNat false (2 ^ 63)

/-- The number without what is behind the point, as the nearest integer of sixty-four bits; zero
if it is not a number. -/
def castInt64 : Binary64 → Int64
  | .finite s m => Integer.clamp (signed s m.truncated)
  | .infinite s => if s then Int64.minValue else Int64.maxValue
  | .nan => 0

/-- The integer of sixty-four bits that has exactly the given value, if there is one. -/
def toInt64? (x : Binary64) : Option Int64 :=
  if x.isFinite && x.fraction.isZero && int64Bound.neg.atMost x && x.less int64Bound then
    some x.castInt64
  else none

end Formula.Binary64
