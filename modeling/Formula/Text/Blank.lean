/-!
# Blank characters

The characters that Unicode counts as white space, all of which lie in a few ranges of code
points, and the text that is left without them at its ends.
-/

namespace Formula.Text

/-- The first and last code points of the ranges of white space. -/
def blankRanges : List (Nat × Nat) :=
  [ (0x09, 0x0D), (0x20, 0x20), (0x85, 0x85), (0xA0, 0xA0), (0x1680, 0x1680),
    (0x2000, 0x200A), (0x2028, 0x2029), (0x202F, 0x202F), (0x205F, 0x205F),
    (0x3000, 0x3000) ]

/-- Is the character white space? -/
def isBlank (c : Char) : Bool :=
  blankRanges.any fun (first, last) => decide (first ≤ c.toNat ∧ c.toNat ≤ last)

/-- The text without the white space at its two ends. -/
def trim (cs : List Char) : List Char :=
  ((cs.dropWhile isBlank).reverse.dropWhile isBlank).reverse

end Formula.Text
