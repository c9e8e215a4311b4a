import Formula.Value.Number

/-!
# Literals

`Value.ofLiteral` reads the text of a literal. The two words for truth values come first. A
text with a point or an exponent mark in it is a floating-point number and any other text an
integer of sixty-four bits. A floating-point number begins with a digit or a point.
-/

namespace Formula.Value

/-- Does the text have the mark of a floating-point number, a point or an exponent? -/
def hasFloatMark (cs : List Char) : Bool := cs.any fun c => c == '.' || c == 'e'

/-- The floating-point number that the characters denote. -/
def readFloat? : List Char → Option Binary64
  | [] => none
  | c :: cs =>
    if c.isDigit || c == '.' then (Decimal.read? (c :: cs)).map Decimal.toBinary64 else none

/-- The integer of sixty-four bits that the characters denote. -/
def readInteger? (cs : List Char) : Option Int64 :=
  (Numeral.readInt? cs).bind Integer.ofInt?

/-- The value of a literal, if its text denotes one. -/
def ofLiteral? (text : String) : Option Value :=
  if text = "true" then some (boolean true)
  else if text = "false" then some (boolean false)
  else if hasFloatMark text.toList then (readFloat? text.toList).map float
  else (readInteger? text.toList).map integer

/-- The value of a literal. -/
def ofLiteral (text : String) : Except ParseError Value :=
  match ofLiteral? text with
  | some v => .ok v
  | none => .error (.invalidLiteral text)

end Formula.Value
