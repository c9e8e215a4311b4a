import Formula.Token.Basic

/-!
# The catalog of symbols

Every symbol that a formula may contain besides literals and variables: the two parentheses,
the comma, the operators and the functions. Each entry says what token its symbol makes.

Two symbols are ambiguous: a plus or minus sign is a binary operator behind a token that may
end an operand, and a unary one anywhere else (`Catalog.signArity`).
-/

namespace Formula.Catalog

/-- What a symbol stands for. -/
inductive Role where
  | operator (binding : Binding)
  | function (binding : Binding)
  /-- A sign that is unary or binary, whichever its place in the formula makes it. -/
  | sign (operation : Operation)
  | parenthesis (side : Parenthesis)
  | comma
  deriving DecidableEq

/-- A symbol and what it stands for. -/
structure Entry where
  symbol : String
  role : Role
  deriving DecidableEq

/-- The precedence of an operator in front of or behind its only operand. -/
def unaryPrecedence : Nat := 3

/-- The precedence of a binary sign. -/
def additivePrecedence : Nat := 6

/-- An operator between two operands, grouped from the left. -/
def between (operation : Operation) (precedence : Nat) : Role :=
  .operator ⟨operation, precedence, .fixed 2, false⟩

/-- An operator in front of its operand. -/
def before (operation : Operation) : Role :=
  .operator ⟨operation, unaryPrecedence, .fixed 1, true⟩

/-- An operator behind its operand. -/
def behind (operation : Operation) : Role :=
  .operator ⟨operation, unaryPrecedence, .fixed 1, false⟩

/-- A function. -/
def named (operation : Operation) (arity : Arity) : Role :=
  .function ⟨operation, 0, arity, false⟩

/-- All symbols. -/
def entries : List Entry :=
  [ ⟨"(", .parenthesis .opening⟩,
    ⟨")", .parenthesis .closing⟩,
    ⟨"==", between .equal 16⟩,
    ⟨"!=", between .notEqual 16⟩,
    ⟨"/=", between .notEqual 16⟩,
    ⟨"<=", between .lessEqual 9⟩,
    ⟨">=", between .greaterEqual 9⟩,
    ⟨"~=", between .approxEqual 16⟩,
    ⟨"+", .sign .plus⟩,
    ⟨"-", .sign .minus⟩,
    ⟨"**", .operator ⟨.power, 5, .fixed 2, true⟩⟩,
    ⟨"*", between .multiply 5⟩,
    ⟨"/", between .divide 5⟩,
    ⟨"^", between .bitwiseXor 4⟩,
    ⟨"%", between .modulo 5⟩,
    ⟨"&&", between .logicalAnd 14⟩,
    ⟨"||", between .logicalOr 15⟩,
    ⟨"<<", between .shiftLeft 7⟩,
    ⟨">>", between .shiftRight 7⟩,
    ⟨"°", behind .degrees⟩,
    ⟨"!", before .logicalNot⟩,
    ⟨"~", before .bitwiseNot⟩,
    ⟨"min", named .min .variadic⟩,
    ⟨"max", named .max .variadic⟩,
    ⟨"pow", named .power (.fixed 2)⟩,
    ⟨"mod", named .modulo (.fixed 2)⟩,
    ⟨"rem", named .remainder (.fixed 2)⟩,
    ⟨"round", named .round .variadic⟩,
    ⟨"acos", named .acos (.fixed 1)⟩,
    ⟨"asin", named .asin (.fixed 1)⟩,
    ⟨"atan", named .atan (.fixed 1)⟩,
    ⟨"abs", named .abs (.fixed 1)⟩,
    ⟨"ln", named .ln (.fixed 1)⟩,
    ⟨"log", named .log .variadic⟩,
    ⟨"exp", named .exp (.fixed 1)⟩,
    ⟨"floor", named .floor .variadic⟩,
    ⟨"ceiling", named .ceiling .variadic⟩,
    ⟨"&", between .bitwiseAnd 11⟩,
    ⟨"|", between .bitwiseOr 13⟩,
    ⟨"cos", named .cos (.fixed 1)⟩,
    ⟨"sin", named .sin (.fixed 1)⟩,
    ⟨"tan", named .tan (.fixed 1)⟩,
    ⟨"ceil", named .ceiling .variadic⟩,
    ⟨"<", between .less 9⟩,
    ⟨">", between .greater 9⟩,
    ⟨",", .comma⟩ ]

/-- The entry of a symbol, if it is one. -/
def find? (symbol : String) : Option Entry :=
  entries.find? (·.symbol == symbol)

/-- The arity and the precedence of a sign behind the given token, if there is one: binary if
that token may end an operand. -/
def signArity (previous : Option Token) : Arity × Nat :=
  if previous.any (·.endsOperand) then (.fixed 2, additivePrecedence)
  else (.fixed 1, unaryPrecedence)

/-- The binding of a sign behind the given token: a unary sign is grouped from the right. -/
def signBinding (operation : Operation) (previous : Option Token) : Binding :=
  let (arity, precedence) := signArity previous
  { operation, precedence, arity, rightAssociative := arity == .fixed 1 }

/-- The token that a symbol makes behind the given token. -/
def Entry.token (e : Entry) (text : String) (position : Nat) (previous : Option Token) : Token :=
  { text, position, kind := match e.role with
      | .operator b => .operator b
      | .function b => .function b
      | .sign operation => .operator (signBinding operation previous)
      | .parenthesis side => .parenthesis side
      | .comma => .comma }

end Formula.Catalog
