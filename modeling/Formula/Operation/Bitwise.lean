import Formula.Operation.Arguments
import Formula.Value.Number

/-!
# Operations on bits

The bitwise connectives and the shifts, on integers alone. A shift to the left fills up with
zeros, and one to the right with copies of the sign bit.

The amount of a shift is refused in two places, with the same error: where it is to become a
number of thirty-two bits (`Bitwise.shiftAmount`), and where the bits are to be shifted by that
many places and there are not more of them (`Bitwise.shifted?`).
-/

namespace Formula.Bitwise

/-- The two arguments of an operation on integers. -/
def operands (name : String) (args : List Value) : Except RuntimeError (Int64 × Int64) := do
  let (a, b) ← Arguments.two name args
  return (← a.integerOperand name, ← b.integerOperand name)

/-- A connective on the bits of two integers. -/
def connective (name : String) (f : Int64 → Int64 → Int64) (args : List Value) :
    Except RuntimeError Value := do
  let (a, b) ← operands name args
  return .integer (f a b)

/-- The bits set in both integers. -/
def and : List Value → Except RuntimeError Value := connective "&" (· &&& ·)

/-- The bits set in at least one of the integers. -/
def or : List Value → Except RuntimeError Value := connective "|" (· ||| ·)

/-- The bits set in exactly one of the integers. -/
def xor : List Value → Except RuntimeError Value := connective "^" (· ^^^ ·)

/-- The bits not set in the integer. -/
def not (args : List Value) : Except RuntimeError Value := do
  let v ← Arguments.one "~" args
  return .integer (~~~(← v.integerOperand "~"))

/-- The error for an amount by which integers are not shifted. -/
def outOfRange (name : String) (amount : Int64) : RuntimeError :=
  .domain name (.shiftAmount amount)

/-- The amount of a shift as a number of thirty-two bits, if it is one. -/
def shiftAmount (name : String) (amount : Int64) : Except RuntimeError UInt32 :=
  match Integer.toUInt32? amount with
  | some places => .ok places
  | none => .error (outOfRange name amount)

/-- The integer with its bits shifted, if there are more of them than places to shift them by. -/
def shifted? (f : BitVec 64 → Nat → BitVec 64) (n : Int64) (places : UInt32) : Option Int64 :=
  if places < 64 then some (.ofBitVec (f n.toBitVec places.toNat)) else none

/-- A shift of the first integer by the second. -/
def shift (name : String) (f : BitVec 64 → Nat → BitVec 64) (args : List Value) :
    Except RuntimeError Value := do
  let (a, b) ← operands name args
  match shifted? f a (← shiftAmount name b) with
  | some n => return .integer n
  | none => .error (outOfRange name b)

/-- The bits of an integer moved to the left, with zeros behind them. -/
def shiftLeft : List Value → Except RuntimeError Value := shift "<<" (· <<< ·)

/-- The bits of an integer moved to the right, with copies of the sign bit in front of them. -/
def shiftRight : List Value → Except RuntimeError Value := shift ">>" BitVec.sshiftRight

end Formula.Bitwise
