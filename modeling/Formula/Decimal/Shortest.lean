import Formula.Decimal.Basic

/-!
# The shortest decimal

Every binary number is the nearest one to an interval of decimals around it. Among those
decimals `Binary64.Magnitude.shortest` takes one on the coarsest grid of powers of ten that
meets the interval, which makes its digits the fewest, and of the points on that grid the one
nearest to the number, the upper one of a tie.

All lengths are counted in `10⁻¹⁰⁷⁴`, in which every magnitude and every coarser grid is
integral. The search goes down the grids from one that is coarser than the number and stops
at the latest on the finest, where the number itself is a point: no count of digits is needed
to see that it ends.

`Binary64.text` writes a number in this form: digits, never an exponent, no decimal point for
an integral number, and words for what is not finite.
-/

namespace Formula

/-- The finest grid is that of `10⁻¹⁰⁷⁴`, because a unit of `2⁻¹⁰⁷⁴` is `5¹⁰⁷⁴` of it. -/
def Decimal.finestPlaces : Nat := 1074

/-- A point of a grid as a decimal: a multiple of the grid's power of ten, and the grid. -/
def Decimal.ofPoint (point : Nat × Nat) : Decimal :=
  { coefficient := point.1, exponent := point.2 - finestPlaces }

/-- The interval of lengths that round to one magnitude, in quarters of `10⁻¹⁰⁷⁴`. -/
structure RoundingInterval where
  lower : Nat
  upper : Nat
  /-- Do the ends themselves belong to the interval? -/
  closed : Bool

namespace RoundingInterval

/-- Does the interval hold a length given in whole `10⁻¹⁰⁷⁴`? -/
def contains (i : RoundingInterval) (length : Nat) : Bool :=
  if i.closed then decide (i.lower ≤ 4 * length ∧ 4 * length ≤ i.upper)
  else decide (i.lower < 4 * length ∧ 4 * length < i.upper)

/-- The point of the interval on the coarsest grid that has one, as a multiple of that grid's
power of ten: the grids are tried from the given one downward, and on each of them the two
neighbours of `length`. -/
def coarsestPoint (i : RoundingInterval) (length : Nat) : Nat → Nat × Nat
  | 0 => (length, 0)
  | grid + 1 =>
    let step := 10 ^ (grid + 1)
    let below := length / step
    let above := below + 1
    if i.contains (above * step) then
      if i.contains (below * step) ∧ 2 * (length % step) < step then (below, grid + 1)
      else (above, grid + 1)
    else if i.contains (below * step) then (below, grid + 1)
    else i.coarsestPoint length grid

end RoundingInterval

namespace Binary64

namespace Magnitude

/-- The magnitude in `10⁻¹⁰⁷⁴`. -/
def decimalLength (m : Magnitude) : Nat := m.units * 5 ^ Decimal.finestPlaces

/-- The lengths that round to the magnitude: half way to its neighbours, of which the lower
one is only half as far if the significand is the least with all its bits. The ends round to
an even significand. -/
def roundingInterval (m : Magnitude) : RoundingInterval :=
  let quarter := 2 ^ m.exponent * 5 ^ Decimal.finestPlaces
  let closer := m.significand = 2 ^ 52 ∧ m.exponent ≠ 0
  { lower := 4 * m.decimalLength - (if closer then quarter else 2 * quarter)
    upper := 4 * m.decimalLength + 2 * quarter
    closed := m.significand % 2 == 0 }

/-- A grid that is coarser than the length. -/
def coarseGrid (length : Nat) : Nat := (length.log2 + 1) * 30103 / 100000 + 1

/-- The point of the magnitude's interval on the coarsest grid that has one, and the grid. -/
def point (m : Magnitude) : Nat × Nat :=
  m.roundingInterval.coarsestPoint m.decimalLength (coarseGrid m.decimalLength)

/-- The shortest decimal that rounds to the magnitude, and the nearest of those. -/
def shortest (m : Magnitude) : Decimal := .ofPoint m.point

end Magnitude

/-- A minus sign for what is negative. -/
def signText (negative : Bool) : List Char := if negative then ['-'] else []

/-- The number as text, in the fewest digits that read back as the same number. -/
def text : Binary64 → String
  | .finite negative m =>
    String.ofList (signText negative ++ if m.units = 0 then ['0'] else m.shortest.plain)
  | .infinite negative => String.ofList (signText negative ++ ['i', 'n', 'f'])
  | .nan => "NaN"

end Binary64

end Formula
