import Formula.Error

/-!
# Argument lists

An operation receives its operands as a list and first sees that they are as many as it takes.
The functions here take the list apart in the ways that operations need, and report any other
number of operands together with the range that was expected.
-/

namespace Formula.Arguments

/-- The error for a number of arguments outside the expected range. -/
def mismatch (name : String) (range : ArgumentRange) (found : Nat) : RuntimeError :=
  .argumentCount name found (.range range)

/-- Succeeds if the range admits the number of arguments. -/
def check (name : String) (range : ArgumentRange) (found : Nat) : Except RuntimeError Unit :=
  if range.admits found then .ok () else .error (mismatch name range found)

/-- The only argument. -/
def one (name : String) : List Value → Except RuntimeError Value
  | [v] => .ok v
  | vs => .error (mismatch name (.exactly 1) vs.length)

/-- The two arguments. -/
def two (name : String) : List Value → Except RuntimeError (Value × Value)
  | [a, b] => .ok (a, b)
  | vs => .error (mismatch name (.exactly 2) vs.length)

/-- The first argument, and the second if there is one. -/
def oneOrTwo (name : String) : List Value → Except RuntimeError (Value × Option Value)
  | [a] => .ok (a, none)
  | [a, b] => .ok (a, some b)
  | vs => .error (mismatch name ⟨1, some 2⟩ vs.length)

/-- The first of at least two arguments and the others. -/
def twoOrMore (name : String) : List Value → Except RuntimeError (Value × List Value)
  | a :: b :: vs => .ok (a, b :: vs)
  | vs => .error (mismatch name (.atLeast 2) vs.length)

end Formula.Arguments
