import Formula.Rpn.Evaluate
import Formula.Text.Normal
import Formula.Token.Scan

/-!
# Evaluating a formula

`evaluate` takes a formula from its text to its value: the text is brought into normal form,
cut into tokens, put into the order of evaluation and evaluated. The first error of any of
these steps is the outcome, and no variable is looked up before the whole text has been read
into that order.
-/

namespace Formula

variable {σ ε : Type}

/-- The tokens of a formula, given as text, in the order of their evaluation. -/
def Rpn.ofText (expression : String) : Except ParseError (List Token) := do
  ofTokens (← Token.tokenize (Text.normalize expression))

/-- The value of a formula. -/
def evaluate (lookup : Lookup σ ε) (expression : String) : Evaluation σ ε Value := do
  Rpn.evaluate lookup (← .ofParse (Rpn.ofText expression))

end Formula
