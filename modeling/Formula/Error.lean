import Formula.Value.Basic

/-!
# Errors

What can go wrong with a formula, by cause: its text cannot be read (`ParseError`), or its
evaluation fails (`RuntimeError`). The wording of each cause is given here once, by the
functions named `message`.

An operation reports its errors under its own name. `RuntimeError.renamed` puts the symbol
that was written in place of that name; it leaves the errors that are not about an operation's
operands as they are.
-/

namespace Formula

/-- A number as text. -/
def countText (n : Nat) : String := String.ofList (Numeral.digits n)

/-- The text of a formula cannot be read. -/
inductive ParseError where
  /-- No word begins with this character. -/
  | unrecognizedInput (text : String) (position : Nat)
  /-- The word has the shape of a number but denotes none. -/
  | invalidLiteral (text : String)
  /-- A parenthesis without its counterpart. -/
  | unbalancedParenthesis (position : Nat)
  /-- A comma outside all parentheses. -/
  | misplacedComma (position : Nat)
  deriving DecidableEq

/-- The wording of an error in the text of a formula. -/
def ParseError.message : ParseError → String
  | unrecognizedInput text position =>
    "Error at position " ++ countText position ++ ": Unrecognized input '" ++ text ++ "'."
  | invalidLiteral text => "Invalid literal '" ++ text ++ "'."
  | unbalancedParenthesis position =>
    "Error at position " ++ countText position ++ ": Unbalanced parenthesis."
  | misplacedComma position =>
    "Error at position " ++ countText position ++ ": Comma outside of an argument list."

/-- How many arguments an operation takes: no fewer than `least`, and no more than `most` if
there is such a bound. -/
structure ArgumentRange where
  least : Nat
  most : Option Nat
  deriving DecidableEq

namespace ArgumentRange

/-- Exactly so many arguments. -/
def exactly (count : Nat) : ArgumentRange := ⟨count, some count⟩

/-- At least so many arguments. -/
def atLeast (count : Nat) : ArgumentRange := ⟨count, none⟩

/-- Does an operation with this range take so many arguments? -/
def admits (r : ArgumentRange) (count : Nat) : Bool :=
  decide (r.least ≤ count) && r.most.all fun most => decide (count ≤ most)

/-- The wording of the range. -/
def text (r : ArgumentRange) : String :=
  match r.most with
  | none => "at least " ++ countText r.least
  | some most =>
    if most = r.least then countText r.least
    else if most = r.least + 1 then countText r.least ++ " or " ++ countText most
    else countText r.least ++ " to " ++ countText most

end ArgumentRange

/-- What an operation expects in place of the arguments that it was given. -/
inductive ArgumentExpectation where
  | range (range : ArgumentRange)
  /-- A function of no fixed number of arguments stands without its list. -/
  | argumentList
  deriving DecidableEq

/-- The wording of an expectation. -/
def ArgumentExpectation.text : ArgumentExpectation → String
  | range r => r.text
  | argumentList => "a parenthesized argument list"

/-- An operand is of a type that the operation does not take. -/
inductive TypeFault where
  | booleanAsNumber
  | expectedInteger (found : ValueType)
  | expectedBoolean (found : ValueType)
  | floatAsInteger
  /-- The operation is asked for a comparison and is none. -/
  | notComparison
  /-- The operation is asked for a rounding and is none. -/
  | notRounding
  deriving DecidableEq

/-- The wording of a fault of type. -/
def TypeFault.text : TypeFault → String
  | booleanAsNumber => "booleans are not numbers"
  | expectedInteger found => "expected an integer, found " ++ found.name
  | expectedBoolean found => "expected a boolean, found " ++ found.name
  | floatAsInteger => "a float cannot be read as an integer"
  | notComparison => "not a comparison"
  | notRounding => "not a rounding operation"

/-- An operand has a value for which the operation is not defined. -/
inductive DomainFault where
  | powerOfZero
  | powerOfNegative
  | shiftAmount (amount : Int64)
  | notPositive (x : Binary64)
  | invalidBase (base : Binary64)
  | outsideUnitInterval (x : Binary64)
  | scaleNotPositive (scale : Binary64)
  deriving DecidableEq

/-- The wording of a fault of domain. -/
def DomainFault.text : DomainFault → String
  | powerOfZero => "zero cannot be raised to a non-positive power"
  | powerOfNegative => "a negative base cannot be raised to a floating exponent"
  | shiftAmount amount => "shift amount " ++ (Value.integer amount).text ++ " is outside 0..64"
  | notPositive x => x.text ++ " is not positive"
  | invalidBase base => base.text ++ " is not a valid base"
  | outsideUnitInterval x => x.text ++ " is outside [-1, 1]"
  | scaleNotPositive scale => "scale " ++ scale.text ++ " is not positive"

/-- The evaluation of a formula fails. -/
inductive RuntimeError where
  | argumentCount (name : String) (found : Nat) (expected : ArgumentExpectation)
  | type (name : String) (fault : TypeFault)
  | domain (name : String) (fault : DomainFault)
  | divisionByZero (name : String)
  /-- An operator finds fewer operands than it needs. -/
  | missingOperand (name : String) (needed available : Nat)
  /-- The formula leaves no value, or more than one. -/
  | unbalancedExpression (remaining : Nat)
  | unknownVariable (name : String)
  deriving DecidableEq

namespace RuntimeError

/-- The wording of an error of evaluation. -/
def message : RuntimeError → String
  | argumentCount name found expected =>
    "Argument count mismatch for '" ++ name ++ "': found " ++ countText found ++ ", expected "
      ++ expected.text ++ "."
  | type name fault => "Type error in '" ++ name ++ "': " ++ fault.text ++ "."
  | domain name fault => "Domain error in '" ++ name ++ "': " ++ fault.text ++ "."
  | divisionByZero name => "Division by zero in '" ++ name ++ "'."
  | missingOperand name needed available =>
    "Missing operand for '" ++ name ++ "': needs " ++ countText needed ++ ", found "
      ++ countText available ++ "."
  | unbalancedExpression remaining =>
    "Expression left " ++ countText remaining ++ " values instead of exactly one."
  | unknownVariable name => "Unknown variable '" ++ name ++ "'."

/-- The error of an operation under the symbol that was written for it. -/
def renamed (symbol : String) : RuntimeError → RuntimeError
  | argumentCount _ found expected => argumentCount symbol found expected
  | type _ fault => type symbol fault
  | domain _ fault => domain symbol fault
  | divisionByZero _ => divisionByZero symbol
  | e => e

end RuntimeError

/-- A formula fails. -/
inductive Error where
  | parse (e : ParseError)
  | runtime (e : RuntimeError)
  deriving DecidableEq

/-- The wording of an error. -/
def Error.message : Error → String
  | parse e => e.message
  | runtime e => e.message

end Formula
