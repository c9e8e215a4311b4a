import Formula.Operation.Arguments
import Formula.Value.Number
import Formula.Binary64.Power

/-!
# Raising to a power

An integer raised to a non-negative integer is the exact power if it has at most sixty-four
bits; every other power is a floating-point number. Zero has only positive powers, and a
negative base none with a floating-point exponent.

The exact power is found by squaring (`Power.timesPower?`), which ends at the first product that
has more than sixty-four bits. Zero and the units, whose powers all are exact, are kept
apart from the other bases, whose exponents have to be numbers of thirty-two bits.
-/

namespace Formula.Power

/-- The product of two integers if it has at most sixty-four bits. -/
def product? (a b : Int64) : Option Int64 := Integer.ofInt? (a.toInt * b.toInt)

/-- The product of an integer with a power of the base, if every product on the way to it has at
most sixty-four bits: while the exponent is halved, the base is squared. -/
def timesPower? (found base : Int64) (exponent : Nat) : Option Int64 := do
  let found ← if exponent % 2 = 1 then product? found base else some found
  if exponent ≤ 1 then return found
  else timesPower? found (← product? base base) (exponent / 2)

/-- The exact power of an integer if it has at most sixty-four bits. -/
def integerPower? (base exponent : Int64) : Option Int64 :=
  if base = 0 ∨ base = 1 then some base
  else if base = -1 then some (if exponent.toInt % 2 = 0 then 1 else -1)
  else do timesPower? 1 base (← Integer.toUInt32? exponent).toNat

/-- The floating-point power of two integers. -/
def widened (base exponent : Int64) : Value :=
  .float ((Binary64.ofInt64 base).pow (.ofInt64 exponent))

/-- An integer raised to an integer. -/
def ofIntegers (base exponent : Int64) : Except RuntimeError Value :=
  if base = 0 ∧ exponent.toInt ≤ 0 then .error (.domain "pow" .powerOfZero)
  else if exponent.toInt < 0 then .ok (widened base exponent)
  else match integerPower? base exponent with
    | some n => .ok (.integer n)
    | none => .ok (widened base exponent)

/-- A floating-point number raised to an integer. -/
def ofFloatAndInteger (base : Binary64) (exponent : Int64) : Except RuntimeError Value :=
  if base.isZero ∧ exponent.toInt ≤ 0 then .error (.domain "pow" .powerOfZero)
  else .ok (.float (base.pow (.ofInt64 exponent)))

/-- A number raised to a floating-point number. -/
def ofFloats (base exponent : Binary64) : Except RuntimeError Value :=
  if base.isZero ∧ exponent.atMost (.zero false) then .error (.domain "pow" .powerOfZero)
  else if base.less (.zero false) then .error (.domain "pow" .powerOfNegative)
  else .ok (.float (base.pow exponent))

/-- The first argument raised to the second. -/
def power (args : List Value) : Except RuntimeError Value := do
  match ← Arguments.two "pow" args with
  | (.integer base, .integer exponent) => ofIntegers base exponent
  | (.float base, .integer exponent) => ofFloatAndInteger base exponent
  | (.integer base, .float exponent) => ofFloats (.ofInt64 base) exponent
  | (.float base, .float exponent) => ofFloats base exponent
  | (.boolean _, _) | (_, .boolean _) => .error (.type "pow" .booleanAsNumber)

end Formula.Power
