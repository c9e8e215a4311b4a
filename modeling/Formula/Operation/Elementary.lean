import Formula.Operation.Arguments
import Formula.Value.Number
import Formula.Binary64.Elementary

/-!
# Elementary functions

The exponential, the logarithms, the circular functions and their inverses, and the passage
from degrees to radians. Each takes a number of either kind and answers with a floating-point
number. Logarithms are defined for what is not below or at zero, and the inverse sine and
cosine from minus one to one; elsewhere they are errors.
-/

namespace Formula.Elementary

/-- A function that is defined for every number. -/
def total (name : String) (f : Binary64 → Binary64) (args : List Value) :
    Except RuntimeError Value := do
  let v ← Arguments.one name args
  return .float (f (← v.number name))

/-- The number zero, which the arguments of logarithms are above. -/
def zero : Binary64 := .zero false

/-- The operand of a logarithm. -/
def positive (name : String) (v : Value) : Except RuntimeError Binary64 := do
  let x ← v.number name
  if x.atMost zero then .error (.domain name (.notPositive x)) else return x

/-- The base of a logarithm: a positive number other than one. -/
def base (name : String) (v : Value) : Except RuntimeError Binary64 := do
  let b ← v.number name
  if b.atMost zero || b.equal .one then .error (.domain name (.invalidBase b)) else return b

/-- A function that is defined from minus one to one. -/
def onUnitInterval (name : String) (f : Binary64 → Binary64) (args : List Value) :
    Except RuntimeError Value := do
  let v ← Arguments.one name args
  let x ← v.number name
  if Binary64.one.neg.atMost x && x.atMost .one then return .float (f x)
  else .error (.domain name (.outsideUnitInterval x))

/-- The natural logarithm. -/
def ln (args : List Value) : Except RuntimeError Value := do
  let v ← Arguments.one "ln" args
  return .float (← positive "ln" v).ln

/-- The logarithm of the first argument to the base ten, or to the second as its base. -/
def log (args : List Value) : Except RuntimeError Value := do
  match ← Arguments.oneOrTwo "log" args with
  | (v, none) => return .float (← positive "log" v).log10
  | (v, some b) =>
    let x ← positive "log" v
    return .float (x.ln.div (← base "log" b).ln)

/-- The number of radians in one degree: the half turn divided by its degrees, both of them
rounded to the nearest number. -/
def radiansPerDegree : Binary64 :=
  (Binary64.ofFixed Binary64.basePlaces (FixedPoint.pi Binary64.basePlaces)).div
    (.ofNat false 180)

/-- An angle in degrees as one in radians. -/
def degrees : List Value → Except RuntimeError Value :=
  total "°" fun x => x.mul radiansPerDegree

end Formula.Elementary
