import Formula.Operation
import Formula.Operation.Arguments
import Formula.Value.Number
import Formula.Binary64.Arithmetic
import Formula.Binary64.Order

/-!
# Rounding

Three of the operations round a number to an integer (`Operation.rounding?`). With a second
argument, the scale, the number is divided by the scale, rounded, and multiplied by it again.

A rounded number is an integer if it fits into sixty-four bits, and stays a floating-point
number if not, or if the scale is one.
-/

namespace Formula

/-- How an operation rounds a number to an integer; none if it is no rounding. -/
def Operation.rounding? : Operation → Option (Binary64 → Binary64)
  | .round => some Binary64.round
  | .floor => some Binary64.floor
  | .ceiling => some Binary64.ceiling
  | _ => none

namespace Rounding

/-- The rounding of a number. -/
def toInteger (name : String) (rounding : Binary64 → Binary64) :
    Value → Except RuntimeError Value
  | .integer n => .ok (.integer n)
  | v => return .integral (rounding (← v.number name))

/-- The rounding of a number to a multiple of a scale. -/
def toScale (name : String) (rounding : Binary64 → Binary64) (v scale : Value) :
    Except RuntimeError Value := do
  let x ← v.number name
  let s ← scale.number name
  if s.isNaN || s.atMost (.zero false) then .error (.domain name (.scaleNotPositive s))
  else
    let rounded := (rounding (x.div s)).mul s
    return if scale.isInteger then .integral rounded else .float rounded

/-- The rounding of the first argument, to a multiple of the second if there is one. -/
def round (operation : Operation) (args : List Value) : Except RuntimeError Value := do
  let (v, scale) ← Arguments.oneOrTwo operation.name args
  match operation.rounding?, scale with
  | none, _ => .error (.type operation.name .notRounding)
  | some rounding, none => toInteger operation.name rounding v
  | some rounding, some scale => toScale operation.name rounding v scale

end Rounding

end Formula
