/-!
# Operations

The closed set of operations that operators and functions stand for. Several symbols may
stand for one operation, and one symbol for two; `Operation.name` is the one name under which
an operation reports its own errors.
-/

namespace Formula

/-- What an operator or a function computes. -/
inductive Operation where
  /-- The sum of two operands, or one operand as it is. -/
  | plus
  /-- The difference of two operands, or one operand with the opposite sign. -/
  | minus
  | multiply
  | divide
  /-- The remainder of the truncated division. -/
  | modulo
  /-- The remainder of the division to the nearest integer. -/
  | remainder
  | power
  | bitwiseAnd
  | bitwiseOr
  | bitwiseXor
  | bitwiseNot
  | shiftLeft
  | shiftRight
  | logicalAnd
  | logicalOr
  | logicalNot
  | equal
  | notEqual
  | less
  | greater
  | lessEqual
  | greaterEqual
  /-- Equality up to a few units in the last place. -/
  | approxEqual
  | min
  | max
  | abs
  /-- The natural logarithm. -/
  | ln
  /-- The logarithm to the base ten, or to a given base. -/
  | log
  | exp
  | sin
  | cos
  | tan
  | asin
  | acos
  | atan
  /-- An angle in degrees as one in radians. -/
  | degrees
  | round
  | floor
  | ceiling
  deriving DecidableEq

namespace Operation

/-- The name of the operation in its errors. -/
def name : Operation → String
  | plus => "+"
  | minus => "-"
  | multiply => "*"
  | divide => "/"
  | modulo => "mod"
  | remainder => "rem"
  | power => "pow"
  | bitwiseAnd => "&"
  | bitwiseOr => "|"
  | bitwiseXor => "^"
  | bitwiseNot => "~"
  | shiftLeft => "<<"
  | shiftRight => ">>"
  | logicalAnd => "&&"
  | logicalOr => "||"
  | logicalNot => "!"
  | equal => "=="
  | notEqual => "!="
  | less => "<"
  | greater => ">"
  | lessEqual => "<="
  | greaterEqual => ">="
  | approxEqual => "~="
  | min => "min"
  | max => "max"
  | abs => "abs"
  | ln => "ln"
  | log => "log"
  | exp => "exp"
  | sin => "sin"
  | cos => "cos"
  | tan => "tan"
  | asin => "asin"
  | acos => "acos"
  | atan => "atan"
  | degrees => "°"
  | round => "round"
  | floor => "floor"
  | ceiling => "ceiling"

/-- Every operation, in the order of their declaration. -/
def all : List Operation :=
  [ plus, minus, multiply, divide, modulo, remainder, power, bitwiseAnd, bitwiseOr, bitwiseXor,
    bitwiseNot, shiftLeft, shiftRight, logicalAnd, logicalOr, logicalNot, equal, notEqual, less,
    greater, lessEqual, greaterEqual, approxEqual, min, max, abs, ln, log, exp, sin, cos, tan,
    asin, acos, atan, degrees, round, floor, ceiling ]

end Operation

end Formula
