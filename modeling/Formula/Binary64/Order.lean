import Formula.Binary64.Basic

/-!
# The order of the numbers

Two numbers are compared by their exact values, an infinity being beyond every finite number;
the two zeros have the same value and are equal. What is not a number compares with nothing,
itself included, so that `Binary64.compare?` is partial and each of the relations read off it
fails on such an operand.

`Binary64.smaller` and `Binary64.larger` pick one of two numbers and prefer a number to what
is not one.
-/

namespace Formula.Binary64

/-- The order of two numbers by value, none if one of them is not a number. -/
def compare? : Binary64 → Binary64 → Option Ordering
  | .nan, _ => none
  | _, .nan => none
  | .infinite s, .infinite t => some (if s = t then .eq else if s then .lt else .gt)
  | .infinite s, .finite _ _ => some (if s then .lt else .gt)
  | .finite _ _, .infinite t => some (if t then .gt else .lt)
  | .finite s a, .finite t b => some (compare (signed s a.units) (signed t b.units))

/-- Do the numbers have the same value? -/
def equal (x y : Binary64) : Bool := x.compare? y == some .eq

/-- Is the first number below the second? -/
def less (x y : Binary64) : Bool := x.compare? y == some .lt

/-- Is the first number above the second? -/
def greater (x y : Binary64) : Bool := x.compare? y == some .gt

/-- Is the first number at most the second? -/
def atMost (x y : Binary64) : Bool := x.less y || x.equal y

/-- The smaller of two numbers; if one is not a number, the other. -/
def smaller (x y : Binary64) : Binary64 :=
  if x.isNaN then y
  else if y.isNaN then x
  else if y.less x then y
  else x

/-- The larger of two numbers; if one is not a number, the other. -/
def larger (x y : Binary64) : Binary64 :=
  if x.isNaN then y
  else if y.isNaN then x
  else if x.less y then y
  else x

end Formula.Binary64
