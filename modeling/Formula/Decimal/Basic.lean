import Formula.Numeral
import Formula.Binary64.Rounding

/-!
# Decimal numbers

A non-negative decimal number is a natural coefficient times a power of ten.

* `Decimal.plain` writes it without an exponent: an integral number as its digits alone,
  any other with a decimal point and as many places as the power of ten asks for.
* `Decimal.read?` reads digits with at most one point among them, behind which a decimal
  exponent may stand.
* `Decimal.toBinary64` rounds it to the nearest number of the binary format.
-/

namespace Formula

/-- The number `coefficient · 10 ^ exponent`. -/
structure Decimal where
  coefficient : Nat
  exponent : Int
  deriving DecidableEq

namespace Decimal

/-- The digits of a number behind as many zeros as make up the given width. -/
def padded (width n : Nat) : List Char :=
  let ds := Numeral.digits n
  List.replicate (width - ds.length) '0' ++ ds

/-- The number without an exponent: digits alone for a number that is integral, and with a
negative power of ten one place behind the point for each of its tens. -/
def plain (d : Decimal) : List Char :=
  if 0 ≤ d.exponent then
    Numeral.digits (d.coefficient * 10 ^ d.exponent.toNat)
  else
    let places := (-d.exponent).toNat
    Numeral.digits (d.coefficient / 10 ^ places)
      ++ '.' :: padded places (d.coefficient % 10 ^ places)

/-! ### Reading -/

/-- A decimal exponent: nothing, or the letter `e` of either case and an integer. -/
def readExponent? : List Char → Option Int
  | [] => some 0
  | c :: cs => if c = 'e' ∨ c = 'E' then Numeral.readInt? cs else none

/-- The digits behind a decimal point, if one comes next, and what is left. -/
def splitFraction : List Char → List Char × List Char
  | '.' :: cs => (cs.takeWhile Char.isDigit, cs.dropWhile Char.isDigit)
  | cs => ([], cs)

/-- The number that the characters denote: digits with at most one point among, before or
behind them, then perhaps an exponent. -/
def read? (cs : List Char) : Option Decimal :=
  let whole := cs.takeWhile Char.isDigit
  let (fraction, rest) := splitFraction (cs.dropWhile Char.isDigit)
  if whole = [] ∧ fraction = [] then none
  else (readExponent? rest).map fun e =>
    { coefficient := Numeral.value (whole ++ fraction), exponent := e - fraction.length }

/-! ### The nearest binary number -/

/-- The decimal magnitude from which on every number is beyond the largest finite one; its
reciprocal is far below the least positive one. -/
def magnitudeLimit : Int := 400

/-- The binary number nearest to the decimal one. The size of a number that is far out of
range is read off its digits, so that no power of ten is computed for it. -/
def toBinary64 (d : Decimal) : Binary64 :=
  let size := d.exponent + Numeral.digitCount d.coefficient
  if d.coefficient = 0 ∨ size < -magnitudeLimit then .zero false
  else if magnitudeLimit < size then .infinite false
  else Binary64.nearest false
    (d.coefficient * 10 ^ d.exponent.toNat * Binary64.unitsPerOne) (10 ^ (-d.exponent).toNat)

end Decimal

end Formula
