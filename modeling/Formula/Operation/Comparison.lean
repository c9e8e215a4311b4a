import Formula.Operation
import Formula.Operation.Arguments
import Formula.Value.Order
import Formula.Binary64.Ulp

/-!
# Comparisons

Six of the operations are questions about the order of two values (`Operation.holds?`). Where
the values have no order, because one is not a number, the answer is no, except that they are
unequal.

Two values are approximately equal if they are equal, or if one of them is a floating-point
number and the other, widened, is within a few units in the last place of it.
-/

namespace Formula

/-- The question that a comparison asks about the order of its operands; none if the operation
is no comparison. -/
def Operation.holds? : Operation → Option (Option Ordering → Bool)
  | .equal => some (· == some .eq)
  | .notEqual => some (· != some .eq)
  | .less => some (· == some .lt)
  | .greater => some (· == some .gt)
  | .lessEqual => some fun o => o == some .lt || o == some .eq
  | .greaterEqual => some fun o => o == some .gt || o == some .eq
  | _ => none

namespace Comparison

/-- The comparison of two values. -/
def compare (operation : Operation) (args : List Value) : Except RuntimeError Value := do
  let (a, b) ← Arguments.two operation.name args
  match operation.holds? with
  | some holds => return .boolean (holds (a.compare? b))
  | none => .error (.type operation.name .notComparison)

/-- Are the two values approximately equal? -/
def approximatelyEqual (a b : Value) : Bool :=
  if a.isFloat || b.isFloat then a.toFloat.near b.toFloat else a.equals b

/-- The comparison up to a few units in the last place. -/
def approximate (args : List Value) : Except RuntimeError Value := do
  let (a, b) ← Arguments.two "~=" args
  return .boolean (approximatelyEqual a b)

end Comparison

end Formula
