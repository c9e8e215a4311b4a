import Formula.Instances

/-!
# Elementary functions in fixed point

A number in fixed point with `p` places is an integer that counts multiples of `2⁻ᵖ`. The
elementary functions are summed here from their power series, after the argument has been
brought close to zero:

* the logarithm of a mantissa between one and two through the inverse hyperbolic tangent, the
  powers of two being counted out first;
* the exponential on the interval around zero that is left when multiples of `ln 2` have been
  taken out (`exponential`, whose answer keeps the power of two apart);
* sine and cosine within an eighth of a turn (`sine`, `cosine`), the quarter turns being
  counted out;
* the inverse tangent of the quotient of two lengths (`angle`), the tangent being halved in
  angle twice and a steep angle being measured from the other axis.

Every step loses less than a few multiples of `2⁻ᵖ`, and the number of terms grows with `p`,
so that an answer is good to nearly all of its places.
-/

namespace Formula.FixedPoint

/-- The number one, as a multiple of `2⁻ᵖ`. -/
def unit (p : Nat) : Int := 2 ^ p

/-- The product, cut to the places. -/
def mul (p : Nat) (x y : Int) : Int := x * y / unit p

/-- The quotient of two integers or of two numbers in fixed point, cut to the places. -/
def ratio (p : Nat) (n d : Int) : Int := n * unit p / d

/-- The greatest natural number whose square is at most `n`. -/
def squareRoot (n : Nat) : Nat :=
  if n = 0 then 0
  else
    let root := 2 * squareRoot (n / 4)
    if (root + 1) * (root + 1) ≤ n then root + 1 else root
termination_by n
decreasing_by omega

/-! ### Inverse tangents and logarithms -/

/-- The series `1 + t / 3 + t² / 5 + …`, with terms enough for `|t| ≤ 1 / 8`. -/
def oddSeries (p : Nat) (t : Int) : Int :=
  (List.range (p / 3 + 2)).foldr (fun (k : Nat) sum => unit p / (2 * k + 1) + mul p t sum) 0

/-- The inverse hyperbolic tangent of a small number. -/
def artanh (p : Nat) (z : Int) : Int := mul p z (oddSeries p (mul p z z))

/-- The inverse tangent of a small number. -/
def arctan (p : Nat) (z : Int) : Int := mul p z (oddSeries p (-mul p z z))

/-- The natural logarithm of two: twice the inverse hyperbolic tangent of one third. -/
def lnTwo (p : Nat) : Int := 2 * artanh p (unit p / 3)

/-- The natural logarithm of `n / 2 ^ places` for a positive `n`. -/
def logarithm (p n places : Nat) : Int :=
  let bits := n.log2
  2 * artanh p (ratio p (n - 2 ^ bits) (n + 2 ^ bits)) + (bits - places) * lnTwo p

/-- The half turn: sixteen times the inverse tangent of a fifth less four times that of the
239th part. -/
def pi (p : Nat) : Int := 16 * arctan p (unit p / 5) - 4 * arctan p (unit p / 239)

/-- The tangent of half the angle whose tangent is `z`. -/
def halfTangent (p : Nat) (z : Int) : Int :=
  ratio p z (unit p + squareRoot (unit p * unit p + z * z).toNat)

/-- The angle whose tangent is `opposite / adjacent`, for lengths that are not both zero: it
is at most a quarter turn. -/
def angle (p : Nat) (opposite adjacent : Int) : Int :=
  if opposite ≤ adjacent then flat opposite adjacent
  else pi p / 2 - flat adjacent opposite
where
  /-- The angle for a tangent of at most one. -/
  flat (n d : Int) : Int := 4 * arctan p (halfTangent p (halfTangent p (ratio p n d)))

/-! ### The exponential -/

/-- The exponential series of a number of at most one half. -/
def exponentialSeries (p : Nat) (r : Int) : Int :=
  (List.range (p / 4)).foldr (fun (k : Nat) sum => unit p + mul p r sum / (k + 1)) (unit p)

/-- The exponential as a number near one and the power of two that multiplies it. -/
def exponential (p : Nat) (x : Int) : Int × Int :=
  let ln := lnTwo p
  let twos := (2 * x + ln) / (2 * ln)
  (exponentialSeries p (x - twos * ln), twos)

/-! ### Sine and cosine -/

/-- The sine series of an angle of at most an eighth of a turn. -/
def sineSeries (p : Nat) (r : Int) : Int :=
  let square := mul p r r
  mul p r <| (List.range (p / 8 + 8)).foldr
    (fun (k : Nat) sum => unit p - mul p square sum / ((2 * k + 2) * (2 * k + 3))) (unit p)

/-- The cosine series of an angle of at most an eighth of a turn. -/
def cosineSeries (p : Nat) (r : Int) : Int :=
  let square := mul p r r
  (List.range (p / 8 + 8)).foldr
    (fun (k : Nat) sum => unit p - mul p square sum / ((2 * k + 1) * (2 * k + 2))) (unit p)

/-- The sine of an angle that lies `quarters` quarter turns and the rest `r` from zero. -/
def sineFrom (p : Nat) (quarters r : Int) : Int :=
  match (quarters % 4).toNat with
  | 0 => sineSeries p r
  | 1 => cosineSeries p r
  | 2 => -sineSeries p r
  | _ => -cosineSeries p r

/-- An angle as the nearest number of quarter turns and the rest. -/
def splitQuarters (p : Nat) (x : Int) : Int × Int :=
  let quarter := pi p / 2
  let quarters := (2 * x + quarter) / (2 * quarter)
  (quarters, x - quarters * quarter)

/-- The sine. -/
def sine (p : Nat) (x : Int) : Int :=
  let (quarters, r) := splitQuarters p x
  sineFrom p quarters r

/-- The cosine is the sine a quarter turn further. -/
def cosine (p : Nat) (x : Int) : Int :=
  let (quarters, r) := splitQuarters p x
  sineFrom p (quarters + 1) r

end Formula.FixedPoint
