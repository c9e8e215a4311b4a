import Formula.Operation.Arguments
import Formula.Value.Number

/-!
# Logic

The connectives on truth values. Both operands are computed before a connective is applied,
and both must be truth values, whichever of them decides the answer.
-/

namespace Formula.Logic

/-- A connective on two truth values. -/
def connective (name : String) (f : Bool → Bool → Bool) (args : List Value) :
    Except RuntimeError Value := do
  let (a, b) ← Arguments.two name args
  return .boolean (f (← a.booleanOperand name) (← b.booleanOperand name))

/-- Are both true? -/
def and : List Value → Except RuntimeError Value := connective "&&" (· && ·)

/-- Is one of them true? -/
def or : List Value → Except RuntimeError Value := connective "||" (· || ·)

/-- The opposite truth value. -/
def not (args : List Value) : Except RuntimeError Value := do
  let v ← Arguments.one "!" args
  return .boolean (!(← v.booleanOperand "!"))

end Formula.Logic
