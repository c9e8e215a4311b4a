import Formula.Error
import Formula.Token.Basic

/-!
# From tokens to reverse Polish notation

`Rpn.ofTokens` brings the tokens of a formula into the order of their evaluation, in which
operators and functions stand behind their operands and there are no parentheses or commas.

The tokens pass a yard. Operands go straight to the output. An operator first sends those
operators to the output that are to be applied before it (`Yard.yields`) and then waits on a
stack; so do functions and opening parentheses without sending anything. A comma and a closing
parenthesis send out what waits inside the innermost open parenthesis. A function whose
parenthesis closes goes out with its number of operands settled: for each open parenthesis an
`ArgumentFrame` counts the arguments between its commas.

Only parentheses and commas can be out of place here. Whether every operator has its operands
is found out by the evaluation.
-/

namespace Formula

/-- What is known of the arguments inside an open parenthesis. -/
structure ArgumentFrame where
  commas : Nat
  /-- Has anything been met behind the parenthesis? -/
  hasContent : Bool
  deriving DecidableEq

namespace ArgumentFrame

/-- The frame of a parenthesis that has just been opened. -/
def empty : ArgumentFrame := ⟨0, false⟩

/-- The frame with another comma. -/
def comma (f : ArgumentFrame) : ArgumentFrame := ⟨f.commas + 1, true⟩

/-- The frame with something else than a comma. -/
def content (f : ArgumentFrame) : ArgumentFrame := { f with hasContent := true }

/-- The number of arguments: none if the parenthesis is empty, and otherwise one more than
there are commas. -/
def count (f : ArgumentFrame) : Nat := if f.hasContent then f.commas + 1 else 0

end ArgumentFrame

/-- The state of the yard; stack and output begin with what came last, and the frames with
that of the innermost open parenthesis. -/
structure Yard where
  stack : List Token
  frames : List ArgumentFrame
  output : List Token

namespace Yard

/-- The yard before the first token. -/
def empty : Yard := ⟨[], [], []⟩

/-- Is a waiting token applied before an incoming operator? It is if it is an operator that
binds tighter, or equally tight while the incoming one is grouped from the left. Parentheses
and functions keep waiting. -/
def yields (incoming waiting : Token) : Bool :=
  if waiting.isOpening || waiting.isFunction then false
  else match waiting.binding?, incoming.binding? with
    | some w, some i =>
      decide (w.precedence < i.precedence)
        || (w.precedence == i.precedence && !i.rightAssociative)
    | _, _ => false

/-- The yard with something noted inside the innermost open parenthesis. -/
def noteContent (y : Yard) : Yard :=
  match y.frames with
  | f :: fs => { y with frames := f.content :: fs }
  | [] => y

/-- The yard with a token sent to the output. -/
def send (y : Yard) (t : Token) : Yard := { y with output := t :: y.output }

/-- The yard with a token left waiting. -/
def hold (y : Yard) (t : Token) : Yard := { y with stack := t :: y.stack }

/-- The yard with the topmost waiting tokens sent to the output, as many of them in a row as
satisfy the condition. -/
def sendWhile (y : Yard) (p : Token → Bool) : Yard :=
  { y with
    stack := y.stack.dropWhile p
    output := (y.stack.takeWhile p).reverse ++ y.output }

/-- The yard with everything sent out that waits inside the innermost open parenthesis. -/
def sendInner (y : Yard) : Yard := y.sendWhile fun t => !t.isOpening

/-- An operator comes in. -/
def operator (y : Yard) (t : Token) : Yard := (y.noteContent.sendWhile (yields t)).hold t

/-- An opening parenthesis comes in. -/
def opening (y : Yard) (t : Token) : Yard :=
  let y := y.noteContent.hold t
  { y with frames := .empty :: y.frames }

/-- A comma comes in. There has to be a frame to count it in, and an open parenthesis to end the
sending at. -/
def comma (y : Yard) (t : Token) : Except ParseError Yard :=
  match y.frames, y.sendInner with
  | [], _ => .error (.misplacedComma t.position)
  | _ :: _, ⟨[], _, _⟩ => .error (.misplacedComma t.position)
  | f :: fs, ⟨top :: stack, _, output⟩ => .ok ⟨top :: stack, f.comma :: fs, output⟩

/-- The function in front of a parenthesis that has been closed goes out with the number of
its arguments. -/
def applyFunction (y : Yard) (arguments : Nat) : Yard :=
  match y.stack with
  | top :: stack =>
    if top.isFunction then { y with stack, output := top.withArity arguments :: y.output }
    else y
  | [] => y

/-- A closing parenthesis comes in. There has to be an open one to end the sending at, and a frame
that belongs to it. -/
def closing (y : Yard) (t : Token) : Except ParseError Yard :=
  match y.sendInner, y.frames with
  | ⟨[], _, _⟩, _ => .error (.unbalancedParenthesis t.position)
  | ⟨_ :: _, _, _⟩, [] => .error (.unbalancedParenthesis t.position)
  | ⟨_ :: stack, _, output⟩, f :: fs => .ok (applyFunction ⟨stack, fs, output⟩ f.count)

/-- A token comes in. -/
def step (y : Yard) (t : Token) : Except ParseError Yard :=
  match t.kind with
  | .value | .symbol => .ok (y.noteContent.send t)
  | .function _ => .ok (y.noteContent.hold t)
  | .operator _ => .ok (y.operator t)
  | .comma => y.comma t
  | .parenthesis .opening => .ok (y.opening t)
  | .parenthesis .closing => y.closing t

/-- The output when no more tokens come in: those that still wait go out, unless there is an
open parenthesis among them. -/
def finish (y : Yard) : Except ParseError (List Token) :=
  match y.stack.find? (·.isOpening) with
  | some t => .error (.unbalancedParenthesis t.position)
  | none => .ok (y.output.reverse ++ y.stack)

end Yard

/-- The tokens of a formula in the order of their evaluation. -/
def Rpn.ofTokens (tokens : List Token) : Except ParseError (List Token) := do
  (← tokens.foldlM Yard.step Yard.empty).finish

end Formula
