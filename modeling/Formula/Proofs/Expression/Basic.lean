import Formula.Evaluation
import Formula.Operation.Apply
import Formula.Proofs.Tree.Written
import Formula.Token.Lexeme
import Formula.Value.Literal

/-!
# Expressions

What a formula means without regard to how it is read: an `Expression` is a literal, a
variable, an operator with its operands or a function with its arguments, and
`Expression.value` evaluates it by recursion, the parts from the left to the right, with the
first error as the outcome.

`Expression.render` writes an expression as a text, with parentheses around everything that is
written with an operator and around nothing else.
-/

namespace Formula

/-! ### The parts of expressions -/

/-- The operator that a symbol stands for in the given place among its operands. -/
def Catalog.Role.binding? (form : Binding.Form) : Role → Option Binding
  | operator b => if b.form = form then some b else none
  | sign operation =>
    match form with
    | .between => some ⟨operation, additivePrecedence, .fixed 2, false⟩
    | .before => some ⟨operation, unaryPrecedence, .fixed 1, true⟩
    | .behind => none
  | function _ | parenthesis _ | comma => none

/-- A symbol of the catalog that is an operator in the given place. -/
structure OperatorSymbol (form : Binding.Form) where
  entry : Catalog.Entry
  mem : entry ∈ Catalog.entries
  binding : Binding
  role : entry.role.binding? form = some binding

/-- A symbol of the catalog that is a function. -/
structure FunctionSymbol where
  entry : Catalog.Entry
  mem : entry ∈ Catalog.entries
  binding : Binding
  role : entry.role = .function binding

/-- A text that is one word of the rule for numbers and denotes a value. -/
structure NumberLiteral where
  text : String
  value : Value
  isNumber : (Lexeme.first? text.toList).map (fun l => (l.rule, l.length)) =
    some (.number, text.toList.length)
  denotes : Value.ofLiteral text = .ok value

/-- Does the text have the shape of a variable: a small letter or an underscore, and behind it
small letters, digits, underscores, points and brackets? -/
def isVariableName : List Char → Bool
  | [] => false
  | c :: cs => (c.isLower || c == '_') &&
      cs.all fun d => d.isLower || d.isDigit || d == '_' || d == '.' || d == '[' || d == ']'

/-- The name of a variable, which is neither a symbol of the catalog nor a truth value. -/
structure VariableName where
  text : String
  isName : isVariableName text.toList = true
  free : ∀ e ∈ Catalog.entries, e.symbol ≠ text
  ne_true : text ≠ "true"
  ne_false : text ≠ "false"

/-- A formula as its parts. -/
inductive Expression where
  | number (n : NumberLiteral)
  | boolean (b : Bool)
  | name (x : VariableName)
  | between (op : OperatorSymbol .between) (left right : Expression)
  | before (op : OperatorSymbol .before) (operand : Expression)
  | behind (op : OperatorSymbol .behind) (operand : Expression)
  | call (f : FunctionSymbol) (arguments : List Expression)

namespace Expression

/-- Induction on an expression, with the statement at hand for all arguments of a call. -/
@[elab_as_elim, induction_eliminator]
theorem rec' {motive : Expression → Prop} (number : ∀ n, motive (.number n))
    (boolean : ∀ b, motive (.boolean b)) (name : ∀ x, motive (.name x))
    (between : ∀ op l r, motive l → motive r → motive (.between op l r))
    (before : ∀ op e, motive e → motive (.before op e))
    (behind : ∀ op e, motive e → motive (.behind op e))
    (call : ∀ f es, (∀ e ∈ es, motive e) → motive (.call f es)) : ∀ e, motive e
  | .number n => number n
  | .boolean b => boolean b
  | .name x => name x
  | .between op l r =>
    between op l r (rec' number boolean name between before behind call l)
      (rec' number boolean name between before behind call r)
  | .before op e => before op e (rec' number boolean name between before behind call e)
  | .behind op e => behind op e (rec' number boolean name between before behind call e)
  | .call f es =>
    call f es fun e _ => rec' number boolean name between before behind call e

/-! ### The text of an expression -/

mutual

/-- The text of an expression, with parentheses around every operator with its operands. -/
def render : Expression → String
  | number n => n.text
  | boolean b => if b then "true" else "false"
  | name x => x.text
  | between op l r => "(" ++ l.render ++ op.entry.symbol ++ r.render ++ ")"
  | before op e => "(" ++ op.entry.symbol ++ e.render ++ ")"
  | behind op e => "(" ++ e.render ++ op.entry.symbol ++ ")"
  | call f es => f.entry.symbol ++ "(" ++ renderArguments es ++ ")"

/-- The texts of several expressions with a comma between any two. -/
def renderArguments : List Expression → String
  | [] => ""
  | [e] => e.render
  | e :: e' :: es => e.render ++ "," ++ renderArguments (e' :: es)

end

/-! ### The value of an expression -/

variable {σ ε : Type}

/-- An operation on values. What an operation finds wrong with its operands is told of the symbol
that was written for it. -/
def operate (symbol : String) (operation : Operation) (vs : List Value) : Evaluation σ ε Value :=
  match operation.apply vs with
  | .ok v => pure v
  | .error (.argumentCount _ found expected) =>
    .ofRun (.error (.argumentCount symbol found expected))
  | .error (.type _ fault) => .ofRun (.error (.type symbol fault))
  | .error (.domain _ fault) => .ofRun (.error (.domain symbol fault))
  | .error (.divisionByZero _) => .ofRun (.error (.divisionByZero symbol))
  -- the errors of the stack of values, which are none of an operation
  | .error e => .ofRun (.error e)

variable {symbol : String} {operation : Operation} {vs : List Value}

/-- Where the operation has a value, the symbol does not matter. -/
theorem operate_of_apply {v : Value} (h : operation.apply vs = .ok v) :
    operate symbol operation vs = (pure v : Evaluation σ ε Value) := by
  rw [operate, h]

/-- The symbol takes the place of the name in each error that has the name of an operation. -/
theorem operate_eq_ofRun :
    operate symbol operation vs =
      (.ofRun ((operation.apply vs).mapError (·.renamed symbol)) : Evaluation σ ε Value) := by
  rw [operate]
  obtain e | v := operation.apply vs
  · obtain _ | _ | _ | _ | _ | _ | _ := e <;> rfl
  · rfl

mutual

/-- The value of an expression: the parts are evaluated from the left to the right, and the
first error is the outcome. -/
def value (lookup : Lookup σ ε) : Expression → Evaluation σ ε Value
  | number n => pure n.value
  | boolean b => pure (.boolean b)
  | name x => .ask lookup x.text
  | between op l r => do
    let v ← l.value lookup
    let w ← r.value lookup
    operate op.entry.symbol op.binding.operation [v, w]
  | before op e => do
    let v ← e.value lookup
    operate op.entry.symbol op.binding.operation [v]
  | behind op e => do
    let v ← e.value lookup
    operate op.entry.symbol op.binding.operation [v]
  | call f es => do
    let vs ← values lookup es
    operate f.entry.symbol f.binding.operation vs

/-- The values of several expressions. -/
def values (lookup : Lookup σ ε) : List Expression → Evaluation σ ε (List Value)
  | [] => pure []
  | e :: es => do
    let v ← e.value lookup
    let vs ← values lookup es
    return v :: vs

end

end Expression

end Formula
