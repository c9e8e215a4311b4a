import Formula.Binary64.Basic

/-!
# Distance in units in the last place

The numbers form a chain, in which each is followed by the next larger one. The pattern of a
number, read as a signed integer, counts the links from zero on as long as the sign is positive.
The pattern of a negative number is reflected around zero (`Binary64.orderedBits`), so that the
count goes on to the other side and both zeros stand at its middle.

`Binary64.ulpDistance?` is the number of steps along the chain, and `Binary64.near` asks for at
most four of them.
-/

namespace Formula.Binary64

/-- The place in the chain that belongs to a pattern of bits. -/
def orderedBits (bits : UInt64) : Int64 :=
  if bits.toInt64 < 0 then Int64.minValue - bits.toInt64 else bits.toInt64

/-- The largest count of sixty-four bits. -/
def largestCount : UInt64 := 0xFFFFFFFFFFFFFFFF

/-- The number of steps from one number to the other in the chain of all numbers; the largest
count would stand for every larger one. -/
def ulpDistance? (x y : Binary64) : Option UInt64 :=
  if x.isNaN || y.isNaN then none
  else
    let distance := ((orderedBits x.toBits).toInt - (orderedBits y.toBits).toInt).natAbs
    some (if distance < UInt64.size then .ofNat distance else largestCount)

/-- The number of steps within which two numbers count as approximately equal. -/
def nearDistance : UInt64 := 4

/-- Are the numbers within a few steps of each other? -/
def near (x y : Binary64) : Bool :=
  match x.ulpDistance? y with
  | some distance => decide (distance ≤ nearDistance)
  | none => false

end Formula.Binary64
