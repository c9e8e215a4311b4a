import Formula.Value.Number
import Formula.Binary64.Order

/-!
# The order of values

Values of any types are compared by what they are worth: truth values count as zero and one,
integers are compared exactly with each other, and an integer that meets a floating-point
number is widened first. What is not a number compares with nothing.

`Value.same` is narrower: values of different types are never the same.
-/

namespace Formula.Value

/-- A value for comparison: an integer or a floating-point number. -/
inductive Comparand where
  | integer (n : Int64)
  | float (x : Binary64)

/-- The comparand as a floating-point number. -/
def Comparand.toFloat : Comparand → Binary64
  | integer n => .ofInt64 n
  | float x => x

/-- The value for comparison, a truth value as zero or one. -/
def comparand : Value → Comparand
  | integer n => .integer n
  | float x => .float x
  | boolean b => .integer (bit b)

/-- The order of two comparands: exact between integers, and otherwise that of the
floating-point numbers. -/
def Comparand.compare? : Comparand → Comparand → Option Ordering
  | integer a, integer b => some (compare a.toInt b.toInt)
  | a, b => a.toFloat.compare? b.toFloat

/-- The order of two values. -/
def compare? (a b : Value) : Option Ordering := a.comparand.compare? b.comparand

/-- Are the values worth the same? -/
def equals (a b : Value) : Bool := a.compare? b == some .eq

/-- Are the values of one type and equal in it? -/
def same : Value → Value → Bool
  | integer a, integer b => a == b
  | float x, float y => x.equal y
  | boolean a, boolean b => a == b
  | _, _ => false

end Formula.Value
