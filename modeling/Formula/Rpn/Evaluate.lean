import Formula.Catalog
import Formula.Evaluation
import Formula.Operation.Apply
import Formula.Rpn.Yard
import Formula.Value.Literal

/-!
# Evaluating reverse Polish notation

The tokens are evaluated one after the other on a stack of values. A literal and a variable
put their value on it; an operator or a function takes its operands from it, the last one
being on top, and puts its own value there. In the end exactly one value has to be left.

The errors of an operation name the symbol that was written for it, if the token's text is one.
-/

namespace Formula.Rpn

variable {σ ε : Type}

/-- The error of an operation with the name that the token's text gives it. -/
def nameError (t : Token) (e : RuntimeError) : RuntimeError :=
  match Catalog.find? t.text with
  | some entry => e.renamed entry.symbol
  | none => e

/-- The stack with the operands of an operator or a function replaced by its value; the stack
begins with the last value. -/
def applyBinding (t : Token) (b : Binding) (stack : List Value) :
    Except RuntimeError (List Value) :=
  match b.arity with
  | .variadic => .error (.argumentCount b.operation.name 0 .argumentList)
  | .fixed needed =>
    if stack.length < needed then .error (.missingOperand t.text needed stack.length)
    else match b.operation.apply (stack.take needed).reverse with
      | .ok v => .ok (v :: stack.drop needed)
      | .error e => .error (nameError t e)

/-- The stack behind a token. -/
def push (lookup : Lookup σ ε) (stack : List Value) (t : Token) : Evaluation σ ε (List Value) :=
  match t.kind with
  | .value => do return (← .ofParse (Value.ofLiteral t.text)) :: stack
  | .symbol => do return (← .ask lookup t.text) :: stack
  | .operator b | .function b => .ofRun (applyBinding t b stack)
  | .parenthesis _ => .ofParse (.error (.unbalancedParenthesis t.position))
  | .comma => .ofParse (.error (.misplacedComma t.position))

/-- The only value on the stack. -/
def single : List Value → Except RuntimeError Value
  | [v] => .ok v
  | vs => .error (.unbalancedExpression vs.length)

/-- The value of a formula in reverse Polish notation. -/
def evaluate (lookup : Lookup σ ε) (tokens : List Token) : Evaluation σ ε Value := do
  .ofRun (single (← tokens.foldlM (push lookup) []))

end Formula.Rpn
