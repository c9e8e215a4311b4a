import Formula.Decimal.Scientific
import Formula.Main
import Formula.Proofs.Yard.Groups
import Formula.Proofs.Tree.Basic
import Formula.Proofs.Tree.Written
import Formula.Proofs.Yard.Precedence
import Formula.Proofs.Lexeme.Boundary
import Formula.Proofs.Token.Words
import Formula.Proofs.Rpn.Unplaced
import Formula.Proofs.Text.Spelling
import Formula.Proofs.Yard.Isolation
import Formula.Proofs.Yard.Replacement
import Formula.Proofs.Rpn.Stack
import Formula.Proofs.Token.Replacement
import Formula.Proofs.Evaluate.Words
import Formula.Proofs.Evaluate.Substitution
import Formula.Proofs.Expression.Basic
import Formula.Proofs.Value.Literal
import Formula.Proofs.Expression.Words
import Formula.Proofs.Expression.Evaluate
import Formula.Proofs.Tree.Assembly
import Formula.Proofs.Rpn.Trees
import Formula.Proofs.Rpn.Failures
import Formula.Proofs.Yard.Arrangement
import Formula.Proofs.Evaluate.Names
import Formula.Proofs.Lexeme.Language
import Formula.Proofs.Token.Munch
import Formula.Proofs.Token.Slices
import Formula.Proofs.Evaluate.Questions
import Formula.Proofs.Evaluate.Literals
import Formula.Proofs.Evaluate.Acceptance
import Formula.Proofs.Evaluate.Account
import Formula.Proofs.Evaluate.Printing
import Formula.Proofs.Operation.Power
import Formula.Proofs.Operation.Parity
import Formula.Proofs.Operation.Remainder
import Formula.Proofs.Operation.Division
import Formula.Proofs.Operation.Arithmetic
import Formula.Proofs.Operation.Validation
import Formula.Proofs.CommandLine.Input
import Formula.Proofs.CommandLine.Settings
import Formula.Proofs.CommandLine.Modes
import Formula.Proofs.Evaluate.Lines
import Formula.Proofs.Operation.Comparison
import Formula.Proofs.Operation.Extremum
import Formula.Proofs.Evaluate.Numbers
import Formula.Proofs.Token.Display
import Formula.Proofs.Operation.Closure
import Formula.Proofs.Evaluate.Closure
import Formula.Proofs.Binary64.Integral
import Formula.Proofs.Operation.Rounding
import Formula.Proofs.Binary64.Quotient
import Formula.Proofs.Operation.Multiples
import Formula.Proofs.Operation.Shift
import Formula.Proofs.Yard.Invariant
import Formula.Proofs.Binary64.Nearest
