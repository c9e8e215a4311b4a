import Formula.Catalog

/-!
# The words of a formula

A formula is cut into words by a list of rules: the symbols of the catalog, the two words for
truth values, numbers and names. At each place the word is the longest one that any rule
finds, and of rules that find words of one length the first in the list applies
(`Lexeme.longest?`). Hence `ceiling` is a function and `ceilings` a variable.

`Lexeme.Rule.length` is how far a rule reaches, zero if it does not apply. The rule for numbers
reaches over every run of digits, points and exponent marks, whether or not it denotes a number.
-/

namespace Formula

/-- A rule for one sort of word. -/
inductive Lexeme.Rule where
  /-- A symbol of the catalog. -/
  | entry (e : Catalog.Entry)
  /-- A word that is a literal. -/
  | word (text : String)
  | number
  | identifier
  deriving DecidableEq

namespace Lexeme

/-- May the character stand in a number, an exponent mark aside? -/
def isNumeric (c : Char) : Bool := c.isDigit || c == '.'

/-- May a name begin with the character? -/
def isNameStart (c : Char) : Bool := c.isAlpha || c == '_'

/-- May the character stand in a name behind the first? -/
def isNamePart (c : Char) : Bool :=
  c.isAlphanum || c == '_' || c == '.' || c == '[' || c == ']'

/-- How many characters continue a number: digits and points, and exponent marks each with at
most one sign behind it. -/
def numberTail : List Char → Nat
  | 'e' :: '+' :: cs => numberTail cs + 2
  | 'e' :: '-' :: cs => numberTail cs + 2
  | c :: cs => if isNumeric c || c == 'e' then numberTail cs + 1 else 0
  | [] => 0

/-- How many characters the number at the front has. -/
def numberLength : List Char → Nat
  | c :: cs => if isNumeric c then numberTail cs + 1 else 0
  | [] => 0

/-- How many characters the name at the front has. -/
def nameLength : List Char → Nat
  | c :: cs => if isNameStart c then (cs.takeWhile isNamePart).length + 1 else 0
  | [] => 0

/-- How many characters the given word has if it is at the front. -/
def wordLength (word cs : List Char) : Nat :=
  if word.isPrefixOf cs then word.length else 0

/-- How many characters at the front the rule takes for a word; zero if it does not apply. -/
def Rule.length : Rule → List Char → Nat
  | .entry e, cs => wordLength e.symbol.toList cs
  | .word text, cs => wordLength text.toList cs
  | .number, cs => numberLength cs
  | .identifier, cs => nameLength cs

private theorem numberTail_le (cs : List Char) : numberTail cs ≤ cs.length := by
  fun_induction numberTail cs <;> simp only [List.length_cons, List.length_nil] <;> omega

private theorem numberLength_le (cs : List Char) : numberLength cs ≤ cs.length := by
  unfold numberLength
  split
  · have := numberTail_le ‹_›
    split <;> simp only [List.length_cons] <;> omega
  · exact Nat.le_refl _

private theorem nameLength_le (cs : List Char) : nameLength cs ≤ cs.length := by
  unfold nameLength
  split
  · split
    · exact Nat.succ_le_succ (List.takeWhile_prefix _).length_le
    · exact Nat.zero_le _
  · exact Nat.le_refl _

private theorem wordLength_le (word cs : List Char) : wordLength word cs ≤ cs.length := by
  unfold wordLength
  split
  · exact (List.isPrefixOf_iff_prefix.1 ‹_›).length_le
  · exact Nat.zero_le _

/-- A rule takes no more characters than there are. -/
theorem Rule.length_le (r : Rule) (cs : List Char) : r.length cs ≤ cs.length :=
  match r with
  | .entry e => wordLength_le e.symbol.toList cs
  | .word text => wordLength_le text.toList cs
  | .number => numberLength_le cs
  | .identifier => nameLength_le cs

/-- All rules; of words of the same length an earlier one takes precedence. -/
def rules : List Rule :=
  Catalog.entries.map .entry ++ [.word "true", .word "false", .number, .identifier]

end Lexeme

/-- A word found at the front of a text: the rule that found it and its number of
characters. -/
structure Lexeme where
  rule : Lexeme.Rule
  length : Nat
  length_pos : 0 < length

namespace Lexeme

/-- The longest word that one of the rules finds at the front, and of words of the same length
that of the first rule. -/
def longest? (cs : List Char) : List Rule → Option Lexeme
  | [] => none
  | r :: rs =>
    let n := r.length cs
    match longest? cs rs with
    | some l => if h : l.length ≤ n then some ⟨r, n, Nat.lt_of_lt_of_le l.length_pos h⟩ else some l
    | none => if h : 0 < n then some ⟨r, n, h⟩ else none

/-- The word at the front of a text. -/
def first? (cs : List Char) : Option Lexeme := longest? cs rules

/-- The token that a word makes behind the given token. -/
def token (l : Lexeme) (text : String) (position : Nat) (previous : Option Token) : Token :=
  match l.rule with
  | .entry e => e.token text position previous
  | .word _ | .number => ⟨text, .value, position⟩
  | .identifier => ⟨text, .symbol, position⟩

end Lexeme

end Formula
