import Formula.Text.Blank
import Formula.Text.Lowercase

/-!
# The normal form of a text

Neither white space nor the case of letters matters in a formula. `Text.normalize` takes both
out: what is left of a text has no white space and no capital letters, and texts that differ
in nothing else have the same normal form.
-/

namespace Formula.Text

/-- The characters without the white space among them, in lower case. -/
def normalizeChars (cs : List Char) : List Char :=
  (cs.filter fun c => !isBlank c).flatMap lowercase

/-- The text without white space, in lower case. -/
def normalize (text : String) : String :=
  String.ofList (normalizeChars text.toList)

end Formula.Text
