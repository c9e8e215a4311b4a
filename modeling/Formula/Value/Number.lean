import Formula.Error
import Formula.Binary64.Integral

/-!
# Values as numbers

How a value is taken for a number. An integer meets a floating-point number by being widened
to the nearest one (`Binary64.ofInt64`); two integers stay integers. A truth value is not a
number where a number is wanted, but it can be read as zero or one on request
(`Value.toInteger`, `Value.toFloat`).
-/

namespace Formula

/-- Two numbers of one kind. -/
inductive NumberPair where
  | integers (a b : Int64)
  | floats (x y : Binary64)
  deriving DecidableEq

namespace Value

/-- Is the value an integer? -/
def isInteger (v : Value) : Bool := v.type == .integer

/-- Is the value a floating-point number? -/
def isFloat (v : Value) : Bool := v.type == .float

/-- Is the value a truth value? -/
def isBoolean (v : Value) : Bool := v.type == .boolean

/-- A truth value as zero or one. -/
def bit (b : Bool) : Int64 := if b then 1 else 0

/-! ### Reading a value as one of a given type -/

/-- The value as an integer; a truth value is read as zero or one. -/
def toInteger : Value → Except RuntimeError Int64
  | integer n => .ok n
  | boolean b => .ok (bit b)
  | float _ => .error (.type "as_integer" .floatAsInteger)

/-- The value as a floating-point number; a truth value is read as zero or one. -/
def toFloat : Value → Binary64
  | integer n => .ofInt64 n
  | float x => x
  | boolean b => .ofInt64 (bit b)

/-- The value as a truth value. -/
def toBoolean : Value → Except RuntimeError Bool
  | boolean b => .ok b
  | v => .error (.type "as_boolean" (.expectedBoolean v.type))

/-! ### Operands -/

/-- The operand of an operation on numbers, widened to a floating-point number. -/
def number (operation : String) : Value → Except RuntimeError Binary64
  | integer n => .ok (.ofInt64 n)
  | float x => .ok x
  | boolean _ => .error (.type operation .booleanAsNumber)

/-- The two operands of an operation on numbers, the integer of an unequal pair widened. -/
def numbers (operation : String) : Value → Value → Except RuntimeError NumberPair
  | integer a, integer b => .ok (.integers a b)
  | float x, float y => .ok (.floats x y)
  | integer a, float y => .ok (.floats (.ofInt64 a) y)
  | float x, integer b => .ok (.floats x (.ofInt64 b))
  | boolean _, _ => .error (.type operation .booleanAsNumber)
  | _, boolean _ => .error (.type operation .booleanAsNumber)

/-- The operand of an operation on integers. -/
def integerOperand (operation : String) : Value → Except RuntimeError Int64
  | integer n => .ok n
  | v => .error (.type operation (.expectedInteger v.type))

/-- The operand of an operation on truth values. -/
def booleanOperand (operation : String) : Value → Except RuntimeError Bool
  | boolean b => .ok b
  | v => .error (.type operation (.expectedBoolean v.type))

/-! ### Results -/

/-- An exact integer as a value, or the given floating-point number if it has more than
sixty-four bits. -/
def exactOr (widened : Binary64) (z : Int) : Value :=
  match Integer.ofInt? z with
  | some n => integer n
  | none => float widened

/-- A floating-point number as an integer if it has the value of one. -/
def integral (x : Binary64) : Value :=
  match x.toInt64? with
  | some n => integer n
  | none => float x

end Value

end Formula
