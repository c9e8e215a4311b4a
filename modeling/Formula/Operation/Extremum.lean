import Formula.Operation
import Formula.Operation.Arguments
import Formula.Value.Number
import Formula.Binary64.Order

/-!
# The smallest and the largest of several numbers

The arguments are taken two at a time from the left. Integers are compared exactly as long as
no floating-point number has been met; from the first of them on the integers are widened. An
argument that is not a number gives way to any other.
-/

namespace Formula.Extremum

/-- The smaller of two numbers if so asked, and otherwise the larger. -/
def pick (smallest : Bool) : NumberPair → Value
  | .integers a b =>
    .integer (if smallest then (if b < a then b else a) else (if a < b then b else a))
  | .floats x y => .float (if smallest then x.smaller y else x.larger y)

/-- The smallest of at least two numbers for the operation of that name, and the largest for
any other operation. -/
def extremum (operation : Operation) (args : List Value) : Except RuntimeError Value := do
  let (first, others) ← Arguments.twoOrMore operation.name args
  others.foldlM (fun found v => do
    return pick (operation == .min) (← Value.numbers operation.name found v)) first

end Formula.Extremum
