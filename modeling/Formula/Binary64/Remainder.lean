import Formula.Binary64.Arithmetic
import Formula.Binary64.Integral
import Formula.Binary64.Order

/-!
# The remainder of the division to the nearest integer

`Binary64.remainder` is what is left of a dividend when the integer nearest to the quotient,
the even one of two, has been taken out. It starts from the remainder of the truncated
division, which is exact, and takes the divisor out once more if that leaves less, or as much
while the truncated quotient is odd.
-/

namespace Formula.Binary64

/-- The number two. -/
def two : Binary64 := ofNat false 2

/-- Is the integer nearest to the number odd? -/
def roundsToOdd (x : Binary64) : Bool :=
  !(x.round.modulo two).equal (zero false)

/-- The remainder of the division to the nearest integer, the even one in a tie. -/
def remainder (a b : Binary64) : Binary64 :=
  let rest := a.modulo b
  let twice := two.mul rest.abs
  if twice.greater b.abs ∨ twice.equal b.abs ∧ ((a.sub rest).div b).roundsToOdd then
    rest.sub (b.abs.withSignOf rest)
  else rest

end Formula.Binary64
