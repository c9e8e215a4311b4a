import Formula.Evaluate

/-!
# The account of an evaluation

`Trace.evaluate` evaluates a formula and keeps account of it, event by event: the text and its
normal form, each token that is found, the order of evaluation, each value that is put on the
stack with the height of the stack, and the outcome. A failure ends the account where it
happens.

Of a token the account has the text and the position. What kind of token it is follows from these
and the tokens in front of it, and is not entered.
-/

namespace Formula

/-- An event in the evaluation of a formula. -/
inductive Event where
  | evaluating (expression normalized : String)
  /-- A token has been found. Its kind is left out. -/
  | token (text : String) (position : Nat)
  /-- The order of evaluation has been found. -/
  | parsed (rpn : String)
  /-- A token has put its value on the stack, which is that high now. -/
  | push (text value : String) (depth : Nat)
  | evaluated (value : String)
  deriving DecidableEq

namespace Trace

variable {σ ε : Type}

/-- The caller's state with the account, which begins with the latest event. -/
abbrev Recorded (σ : Type) := σ × List Event

/-- Enters an event into the account. -/
def record (e : Event) : Evaluation (Recorded σ) ε Unit := fun (s, events) =>
  (.ok (), s, e :: events)

/-- The lookup beside the account. -/
def lookup (f : Lookup σ ε) : Lookup (Recorded σ) ε := fun name (s, events) =>
  let (r, s) := f name s
  (r, s, events)

/-- The event of a token that is found. -/
def found (t : Token) : Event := .token t.text t.position

/-- The tokens of a text, each of them recorded up to the first error. -/
def tokenize (text : String) : Evaluation (Recorded σ) ε (List Token) := do
  (Token.scan text).tokens.forM fun t => record (found t)
  .ofParse (Token.tokenize text)

/-- The stack behind a token, the value on top of it being recorded. -/
def push (f : Lookup σ ε) (stack : List Value) (t : Token) :
    Evaluation (Recorded σ) ε (List Value) := do
  let stack ← Rpn.push (lookup f) stack t
  if let v :: _ := stack then record (.push t.text v.text stack.length)
  return stack

/-- The value of a formula, with an account of its evaluation. -/
def evaluate (f : Lookup σ ε) (expression : String) : Evaluation (Recorded σ) ε Value := do
  let normalized := Text.normalize expression
  record (.evaluating expression normalized)
  let tokens ← tokenize normalized
  let rpn ← .ofParse (Rpn.ofTokens tokens)
  record (.parsed (Token.display rpn))
  let v ← .ofRun (Rpn.single (← rpn.foldlM (push f) []))
  record (.evaluated v.text)
  return v

/-- The outcome of evaluating a formula from a caller's state, the account in the order of the
events, and the caller's state behind it. -/
def run (f : Lookup σ ε) (expression : String) (s : σ) :
    Except (Failure ε) Value × List Event × σ :=
  let (r, s, events) := (evaluate f expression).run (s, [])
  (r, events.reverse, s)

end Trace

end Formula
