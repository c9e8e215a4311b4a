import Formula.Decimal.Shortest

/-!
# Scientific notation

`Binary64.scientific` writes a number with a fixed count of significant digits, one of them in
front of the point, and the decimal exponent behind the letter `e`. The digits are those of
the exact value, rounded to the nearest and to the even digit in a tie.
-/

namespace Formula

/-- A coefficient with its digits, and the decimal exponent of the first of them. -/
structure Decimal.Leading where
  coefficient : Nat
  exponent : Int

namespace Decimal.Leading

/-- The first `count` digits of a length given in `10⁻¹⁰⁷⁴`, rounded from the exact length; a
coefficient that rounds up to one digit more gives it to the exponent. -/
def ofLength (count length : Nat) : Leading :=
  if length = 0 then { coefficient := 0, exponent := 0 }
  else
    let size := Numeral.digitCount length
    let exponent : Int := size - 1 - Decimal.finestPlaces
    let coefficient := roundHalfEven (length * 10 ^ (count - size)) (10 ^ (size - count))
    if coefficient = 10 ^ count then
      { coefficient := 10 ^ (count - 1), exponent := exponent + 1 }
    else { coefficient, exponent }

/-- The coefficient's digits with a point behind the first, and the exponent. -/
def text (count : Nat) (l : Leading) : List Char :=
  let ds := Decimal.padded count l.coefficient
  ds.take 1 ++ (if count ≤ 1 then [] else '.' :: ds.drop 1) ++ 'e' :: Numeral.ofInt l.exponent

end Decimal.Leading

/-- The number with `count` significant digits. -/
def Binary64.scientific (count : Nat) : Binary64 → String
  | .finite negative m =>
    String.ofList (signText negative ++ (Decimal.Leading.ofLength count m.decimalLength).text count)
  | x => x.text

end Formula
