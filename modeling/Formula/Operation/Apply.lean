import Formula.Operation.Arithmetic
import Formula.Operation.Bitwise
import Formula.Operation.Comparison
import Formula.Operation.Elementary
import Formula.Operation.Extremum
import Formula.Operation.Logic
import Formula.Operation.Power
import Formula.Operation.Rounding

/-!
# Applying an operation

`Operation.apply` computes an operation on a list of arguments. Every operation first sees
that their number is one that it takes; the name in its errors is `Operation.name`.
-/

namespace Formula

/-- The value of an operation on its arguments. -/
def Operation.apply : Operation → List Value → Except RuntimeError Value
  | .plus => Arithmetic.plus
  | .minus => Arithmetic.minus
  | .multiply => Arithmetic.multiply
  | .divide => Arithmetic.divide
  | .modulo => Arithmetic.modulo
  | .remainder => Arithmetic.remainder
  | .power => Power.power
  | .bitwiseAnd => Bitwise.and
  | .bitwiseOr => Bitwise.or
  | .bitwiseXor => Bitwise.xor
  | .bitwiseNot => Bitwise.not
  | .shiftLeft => Bitwise.shiftLeft
  | .shiftRight => Bitwise.shiftRight
  | .logicalAnd => Logic.and
  | .logicalOr => Logic.or
  | .logicalNot => Logic.not
  | .equal => Comparison.compare .equal
  | .notEqual => Comparison.compare .notEqual
  | .less => Comparison.compare .less
  | .greater => Comparison.compare .greater
  | .lessEqual => Comparison.compare .lessEqual
  | .greaterEqual => Comparison.compare .greaterEqual
  | .approxEqual => Comparison.approximate
  | .min => Extremum.extremum .min
  | .max => Extremum.extremum .max
  | .abs => Arithmetic.abs
  | .ln => Elementary.ln
  | .log => Elementary.log
  | .exp => Elementary.total "exp" Binary64.exp
  | .sin => Elementary.total "sin" Binary64.sin
  | .cos => Elementary.total "cos" Binary64.cos
  | .tan => Elementary.total "tan" Binary64.tan
  | .asin => Elementary.onUnitInterval "asin" Binary64.asin
  | .acos => Elementary.onUnitInterval "acos" Binary64.acos
  | .atan => Elementary.total "atan" Binary64.atan
  | .degrees => Elementary.degrees
  | .round => Rounding.round .round
  | .floor => Rounding.round .floor
  | .ceiling => Rounding.round .ceiling

end Formula
