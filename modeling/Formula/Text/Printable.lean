/-!
# The printable part of a text

A terminal does not show every character of a text: control characters, and the control
sequences that begin with an escape character, move the cursor or change colours instead.
`Text.printable` leaves them out of a text, so that a message can safely quote what somebody
has typed.

A sequence goes on until a character ends it, or until a new one begins. White space inside a
sequence is shown, and so is the text behind it; the sequence is resumed at the next control
character, unless a character beyond ASCII has ended it.
-/

namespace Formula.Text

/-! ### Characters -/

/-- The character with which a control sequence begins. -/
def escapeChar : Char := '\x1b'

/-- Does the character break off a control sequence? These are *cancel* and *substitute*. -/
def isCancel (c : Char) : Bool := c == '\x18' || c == '\x1a'

/-- Is the character one of the control characters that only move to another place of the
page? -/
def isSpacing (c : Char) : Bool := c == '\t' || c == '\n' || c == '\x0c' || c == '\r'

/-- Does a terminal show the character as text? It does with spacing, and with all characters
from the blank on but *delete*. -/
def isPrintable (c : Char) : Bool := isSpacing c || (decide (' ' ≤ c) && c != '\x7f')

/-- Is one of the bytes of a character beyond ASCII the *string terminator*? -/
def hasTerminator (c : Char) : Bool :=
  decide ('\x7f' < c) && (String.utf8EncodeChar c).contains 0x9c

/-! ### Control sequences -/

/-- How far a control sequence has been read. -/
inductive ControlSequence where
  /-- Only the escape character. -/
  | escape
  /-- Characters between the escape character and the one that ends the sequence. -/
  | intermediate
  /-- The parameters of a function, behind an opening bracket. -/
  | parameters
  /-- A command to the operating system, behind a closing bracket. -/
  | systemCommand
  /-- The parameters of a control string for the device, behind a `P`. -/
  | deviceParameters
  /-- A control string of any content. -/
  | controlString
  deriving DecidableEq

namespace ControlSequence

/-- Is spacing inside the sequence shown? -/
def showsSpacing : ControlSequence → Bool
  | escape | intermediate | parameters => true
  | systemCommand | deviceParameters | controlString => false

/-- The sequence behind the escape character and another character, if it goes on. -/
def introduced (c : Char) : Option ControlSequence :=
  if ' ' ≤ c ∧ c ≤ '/' then some intermediate
  else match c with
    | '[' => some parameters
    | ']' => some systemCommand
    | 'P' => some deviceParameters
    | 'X' | '^' | '_' => some controlString
    | _ => if '0' ≤ c ∧ c ≤ '~' then none else some escape

/-- The sequence behind another character, if it goes on. Characters that mean nothing to the
sequence do not end it. -/
def next : ControlSequence → Char → Option ControlSequence
  | escape, c => introduced c
  | intermediate, c => if '0' ≤ c ∧ c ≤ '~' then none else some intermediate
  | parameters, c => if '@' ≤ c ∧ c ≤ '~' then none else some parameters
  | systemCommand, c => if c = '\x07' then none else some systemCommand
  | deviceParameters, c =>
    if '@' ≤ c ∧ c ≤ '~' then some controlString else some deviceParameters
  | controlString, c => if hasTerminator c then none else some controlString

end ControlSequence

/-! ### What a terminal does with a text -/

/-- What a terminal does with the characters that it receives. -/
inductive Reception where
  /-- It shows them as text. The text may stand inside a control sequence. -/
  | shown (inside : Option ControlSequence)
  /-- It takes them as part of a control sequence. -/
  | taken (sequence : ControlSequence)
  deriving DecidableEq

namespace Reception

/-- The reception inside a control sequence, if there is one. -/
def within : Option ControlSequence → Reception
  | some s => taken s
  | none => shown none

/-- Is the character shown? -/
def shows : Reception → Char → Bool
  | shown _, c => isPrintable c
  | taken s, c => s.showsSpacing && isSpacing c

/-- The reception behind a character. -/
def next (r : Reception) (c : Char) : Reception :=
  if c = escapeChar then taken .escape
  else if isCancel c then shown none
  else match r with
    | shown inside =>
      if isPrintable c then shown (if c ≤ '\x7f' then inside else none) else within inside
    | taken s =>
      if s.showsSpacing && isSpacing c then shown (some s) else within (s.next c)

/-- The characters that are shown. -/
def filter : Reception → List Char → List Char
  | _, [] => []
  | r, c :: cs => if r.shows c then c :: (r.next c).filter cs else (r.next c).filter cs

end Reception

/-- The characters that are neither control characters nor part of a control sequence. -/
def printableChars (cs : List Char) : List Char := (Reception.shown none).filter cs

/-- The text without control characters and control sequences. -/
def printable (text : String) : String := String.ofList (printableChars text.toList)

end Formula.Text
