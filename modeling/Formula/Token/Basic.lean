import Formula.Operation

/-!
# Tokens

A token is a word of a formula together with what it stands for and where it begins. An
operator or a function carries its binding: the operation, how tightly it binds, on how many
operands, and from which side a row of equally tight ones is grouped.

The text of a token is what errors quote; what the token means is in its kind alone.
-/

namespace Formula

/-- On how many operands an operator or a function works. -/
inductive Arity where
  | fixed (count : Nat)
  /-- As many as the parenthesized list behind the function holds. -/
  | variadic
  deriving DecidableEq

/-- How an operator or a function is applied. -/
structure Binding where
  operation : Operation
  /-- The lower the number, the tighter the operator binds. -/
  precedence : Nat
  arity : Arity
  /-- Is a row of equally tight operators grouped from the right? -/
  rightAssociative : Bool
  deriving DecidableEq

/-- The two parentheses. -/
inductive Parenthesis where
  | opening
  | closing
  deriving DecidableEq

/-- What a token stands for. -/
inductive Token.Kind where
  /-- A literal. -/
  | value
  /-- The name of a variable. -/
  | symbol
  | operator (binding : Binding)
  | function (binding : Binding)
  | parenthesis (side : Parenthesis)
  | comma
  deriving DecidableEq

/-- A word of a formula; `position` is the number of bytes in front of it. -/
structure Token where
  text : String
  kind : Token.Kind
  position : Nat
  deriving DecidableEq

namespace Token

/-- The binding of an operator or a function. -/
def binding? (t : Token) : Option Binding :=
  match t.kind with
  | .operator b | .function b => some b
  | _ => none

/-- Is the token an operator or a function grouped from the right? -/
def isRightAssociative (t : Token) : Bool :=
  t.binding?.any (·.rightAssociative)

/-- The function with its number of operands settled; any other token as it is. -/
def withArity (t : Token) (count : Nat) : Token :=
  match t.kind with
  | .function b => { t with kind := .function { b with arity := .fixed count } }
  | _ => t

/-- May the token be the last one of an operand, or separate two? A sign behind such a token
is binary. -/
def endsOperand (t : Token) : Bool :=
  match t.kind with
  | .value | .symbol | .parenthesis .closing | .comma => true
  | .operator _ | .function _ | .parenthesis .opening => false

/-- Is the token an opening parenthesis? -/
def isOpening (t : Token) : Bool :=
  match t.kind with
  | .parenthesis .opening => true
  | _ => false

/-- Is the token a function? -/
def isFunction (t : Token) : Bool :=
  match t.kind with
  | .function _ => true
  | _ => false

/-- The texts of the tokens with a blank between any two. -/
def display (tokens : List Token) : String :=
  String.intercalate " " (tokens.map (·.text))

end Token

end Formula
