import Formula.Decimal.Shortest

/-!
# Values

A formula computes with integers of sixty-four bits, binary floating-point numbers and truth
values. `Value.text` is the form in which a value is shown: for a number the digits that read
back as it, for a truth value its word.
-/

namespace Formula

/-- A value of a formula. -/
inductive Value where
  | integer (n : Int64)
  | float (x : Binary64)
  | boolean (b : Bool)
  deriving DecidableEq

/-- The three types of values. -/
inductive ValueType where
  | integer
  | float
  | boolean
  deriving DecidableEq

/-- The word for a type. -/
def ValueType.name : ValueType → String
  | integer => "integer"
  | float => "float"
  | boolean => "boolean"

namespace Value

/-- The type of a value. -/
def type : Value → ValueType
  | integer _ => .integer
  | float _ => .float
  | boolean _ => .boolean

/-- The words for the two truth values. -/
def booleanText (b : Bool) : String := if b then "true" else "false"

/-- The value as it is shown. -/
def text : Value → String
  | integer n => String.ofList (Numeral.ofInt n.toInt)
  | float x => x.text
  | boolean b => booleanText b

end Value

end Formula
