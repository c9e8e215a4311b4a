import Formula.Binary64.Rounding

/-!
# Arithmetic

Each operation computes its exact result as an integer or a quotient of units and rounds it
once (`Binary64.nearest`). The remainder of a truncated division (`Binary64.modulo`) is itself
a number of the format, because it is a multiple of the lesser of the two operands' last
places, so that its rounding changes nothing.

The rules for the operands that have no exact value are those of the format: what is not a
number stays so, opposite infinities do not add up, an infinity times zero, a quotient of two
infinities or of two zeros, and the remainder of an infinity or by zero are not numbers. A
sum that is exactly zero is the positive zero, unless both operands are negative zeros.
-/

namespace Formula.Binary64

/-- The number with the opposite sign. -/
def neg : Binary64 → Binary64
  | .finite s m => .finite (!s) m
  | .infinite s => .infinite (!s)
  | .nan => .nan

/-- The number without its sign. -/
def abs : Binary64 → Binary64
  | .finite _ m => .finite false m
  | .infinite _ => .infinite false
  | .nan => .nan

/-- The first number with the sign of the second. -/
def withSignOf (x y : Binary64) : Binary64 :=
  if y.isNegative then x.abs.neg else x.abs

/-- The sum. -/
def add : Binary64 → Binary64 → Binary64
  | .nan, _ => .nan
  | _, .nan => .nan
  | .infinite s, .infinite t => if s = t then .infinite s else .nan
  | .infinite s, .finite _ _ => .infinite s
  | .finite _ _, .infinite t => .infinite t
  | .finite s a, .finite t b => ofScaled (s && t) (signed s a.units + signed t b.units)

/-- The difference. -/
def sub (x y : Binary64) : Binary64 := x.add y.neg

/-- The product. -/
def mul : Binary64 → Binary64 → Binary64
  | .nan, _ => .nan
  | _, .nan => .nan
  | .infinite s, .infinite t => .infinite (s ^^ t)
  | .infinite s, .finite t b => if b.units = 0 then .nan else .infinite (s ^^ t)
  | .finite s a, .infinite t => if a.units = 0 then .nan else .infinite (s ^^ t)
  | .finite s a, .finite t b => nearest (s ^^ t) (a.units * b.units) unitsPerOne

/-- The quotient. -/
def div : Binary64 → Binary64 → Binary64
  | .nan, _ => .nan
  | _, .nan => .nan
  | .infinite _, .infinite _ => .nan
  | .infinite s, .finite t _ => .infinite (s ^^ t)
  | .finite s _, .infinite t => zero (s ^^ t)
  | .finite s a, .finite t b =>
    if b.units = 0 then
      if a.units = 0 then .nan else .infinite (s ^^ t)
    else nearest (s ^^ t) (a.units * unitsPerOne) b.units

/-- The remainder of the division truncated toward zero: it has the sign of the dividend and
is smaller than the divisor. -/
def modulo : Binary64 → Binary64 → Binary64
  | .nan, _ => .nan
  | _, .nan => .nan
  | .infinite _, _ => .nan
  | .finite s a, .infinite _ => .finite s a
  | .finite s a, .finite _ b =>
    if b.units = 0 then .nan else nearest s (a.units % b.units) 1

end Formula.Binary64
