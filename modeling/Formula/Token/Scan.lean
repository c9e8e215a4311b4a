import Formula.Error
import Formula.Token.Lexeme

/-!
# The tokens of a text

`Token.scan` cuts a text into tokens from its front: it skips blanks, takes the longest word
(`Lexeme.first?`), and goes on behind it. Where no word begins it stops; the tokens found so
far are kept beside the error, which names the one character that stands there.

`Token.tokenize` is the same for a text that has to be read as a whole.
-/

namespace Formula.Token

/-- The blanks between words. -/
def isSeparator (c : Char) : Bool :=
  c == ' ' || c == '\t' || c == '\r' || c == '\n' || c == '\x0c'

/-- The number of bytes of the characters. -/
def byteLength : List Char → Nat
  | [] => 0
  | c :: cs => c.utf8Size + byteLength cs

/-- What scanning finds: the tokens, and the error that ended them before the text did. -/
structure Scanned where
  tokens : List Token
  error : Option ParseError

/-- The tokens of the characters that stand at a position behind a token. -/
def scanFrom (position : Nat) (previous : Option Token) : List Char → Scanned
  | [] => ⟨[], none⟩
  | c :: cs =>
    if isSeparator c then scanFrom (position + c.utf8Size) previous cs
    else match Lexeme.first? (c :: cs) with
      | none => ⟨[], some (.unrecognizedInput (String.singleton c) position)⟩
      | some l =>
        let word := (c :: cs).take l.length
        let t := l.token (String.ofList word) position previous
        let rest := scanFrom (position + byteLength word) (some t) ((c :: cs).drop l.length)
        { rest with tokens := t :: rest.tokens }
termination_by cs => cs.length
decreasing_by
  · simp
  · have := l.length_pos
    simp only [List.length_drop, List.length_cons]
    omega

/-- The tokens of a text, up to the first place where no word begins. -/
def scan (text : String) : Scanned := scanFrom 0 none text.toList

/-- The tokens of a text, if it consists of words throughout. -/
def tokenize (text : String) : Except ParseError (List Token) :=
  match scan text with
  | ⟨tokens, none⟩ => .ok tokens
  | ⟨_, some e⟩ => .error e

end Formula.Token
