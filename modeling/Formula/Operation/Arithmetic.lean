import Formula.Operation.Arguments
import Formula.Value.Number
import Formula.Binary64.Arithmetic
import Formula.Binary64.Remainder

/-!
# Arithmetic

The signs, the four basic operations, the two remainders and the absolute value. On two
integers each computes the exact integer; if that has more than sixty-four bits, the answer is
the floating-point result for the widened operands. If an operand is a floating-point number,
the other is widened to one.

A division by zero is an error for numbers of either kind.
-/

namespace Formula.Arithmetic

/-- An operation on two numbers, given exactly for integers and rounded for floating-point
numbers. -/
def combine (name : String) (exact : Int → Int → Int)
    (rounded : Binary64 → Binary64 → Binary64) (args : List Value) :
    Except RuntimeError Value := do
  let (a, b) ← Arguments.two name args
  match ← Value.numbers name a b with
  | .integers a b =>
    return .exactOr (rounded (.ofInt64 a) (.ofInt64 b)) (exact a.toInt b.toInt)
  | .floats x y => return .float (rounded x y)

/-- An operation like `combine` that divides: zero as the second operand is an error. -/
def combineDividing (name : String) (exact : Int → Int → Int)
    (rounded : Binary64 → Binary64 → Binary64) (args : List Value) :
    Except RuntimeError Value := do
  let (a, b) ← Arguments.two name args
  match ← Value.numbers name a b with
  | .integers a b =>
    if b = 0 then .error (.divisionByZero name)
    else return .exactOr (rounded (.ofInt64 a) (.ofInt64 b)) (exact a.toInt b.toInt)
  | .floats x y =>
    if y.isZero then .error (.divisionByZero name)
    else return .float (rounded x y)

/-- The sum of two numbers. -/
def add : List Value → Except RuntimeError Value := combine "+" (· + ·) Binary64.add

/-- The difference of two numbers. -/
def subtract : List Value → Except RuntimeError Value := combine "-" (· - ·) Binary64.sub

/-- The product of two numbers. -/
def multiply : List Value → Except RuntimeError Value := combine "*" (· * ·) Binary64.mul

/-- The quotient of two numbers, truncated for integers. -/
def divide : List Value → Except RuntimeError Value :=
  combineDividing "/" Int.tdiv Binary64.div

/-- The remainder of the truncated division. -/
def modulo : List Value → Except RuntimeError Value :=
  combineDividing "mod" Int.tmod Binary64.modulo

/-- The remainder of the division to the nearest integer. -/
def remainder : List Value → Except RuntimeError Value :=
  combineDividing "rem" Integer.nearestRemainder Binary64.remainder

/-- The number as it is. -/
def identity : Value → Except RuntimeError Value
  | .boolean _ => .error (.type "+" .booleanAsNumber)
  | v => .ok v

/-- The number with the opposite sign. -/
def negate : Value → Except RuntimeError Value
  | .integer n => .ok (.exactOr (Binary64.ofInt64 n).neg (-n.toInt))
  | .float x => .ok (.float x.neg)
  | .boolean _ => .error (.type "-" .booleanAsNumber)

/-- A plus sign in front of one operand or between two. -/
def plus (args : List Value) : Except RuntimeError Value := do
  match ← Arguments.oneOrTwo "+" args with
  | (v, none) => identity v
  | (a, some b) => add [a, b]

/-- A minus sign in front of one operand or between two. -/
def minus (args : List Value) : Except RuntimeError Value := do
  match ← Arguments.oneOrTwo "-" args with
  | (v, none) => negate v
  | (a, some b) => subtract [a, b]

/-- The number without its sign. -/
def abs (args : List Value) : Except RuntimeError Value := do
  match ← Arguments.one "abs" args with
  | .integer n => return .exactOr (Binary64.ofInt64 n).abs n.toInt.natAbs
  | v => return .float (← v.number "abs").abs

end Formula.Arithmetic
