import Formula.Binary64.Basic

/-!
# Rounding to the nearest number

`Binary64.nearest` rounds a non-negative quotient of units to the nearest number of the
format, a tie to the neighbour whose significand is even, and what is too large to infinity.
Every inexact operation of the library is an exact quotient followed by this one rounding.

The significand is the quotient itself cut to 53 bits: the exponent is the number of bits
beyond the 53rd, and `roundHalfEven` divides by that power of two. `roundHalfEven` never
leaves the two integers around the quotient (`div_le_roundHalfEven`,
`roundHalfEven_le_succ`), so that the significand is at most `2 ^ 53`, and a significand of
exactly `2 ^ 53` is carried into the exponent. A number that needs no rounding is left as it
is (`Binary64.nearest_units`).
-/

namespace Formula

/-- The integer nearest to the quotient `n / d`, and of two nearest ones the even one. -/
def roundHalfEven (n d : Nat) : Nat :=
  if 2 * (n % d) < d then n / d
  else if d < 2 * (n % d) then n / d + 1
  else n / d + n / d % 2

/-- Rounding to the nearest does not go below the truncated quotient. -/
theorem div_le_roundHalfEven (n d : Nat) : n / d ≤ roundHalfEven n d := by
  unfold roundHalfEven
  split
  · exact Nat.le_refl _
  · split <;> exact Nat.le_add_right _ _

theorem roundHalfEven_le_succ (n d : Nat) : roundHalfEven n d ≤ n / d + 1 := by
  unfold roundHalfEven
  split
  · exact Nat.le_add_right _ _
  · split
    · exact Nat.le_refl _
    · exact Nat.add_le_add_left (by omega) _

/-- A multiple of the divisor has its exact quotient. -/
theorem roundHalfEven_mul (q : Nat) {d : Nat} (h : 0 < d) : roundHalfEven (q * d) d = q := by
  unfold roundHalfEven
  rw [Nat.mul_mod_left, Nat.mul_div_cancel q h, if_pos (by omega)]

namespace Binary64

/-- The exponent at which a whole number of units has a significand of at most 53 bits: the
number of bits beyond the 53rd. -/
def exponentFor (units : Nat) : Nat := units.log2 - 52

/-- The quotient of a whole number of units by its power of two has 53 bits, or fewer if the
exponent is least. -/
theorem significand_bounds (q : Nat) :
    q / 2 ^ exponentFor q < 2 ^ 53 ∧ (exponentFor q = 0 ∨ 2 ^ 52 ≤ q / 2 ^ exponentFor q) := by
  unfold exponentFor
  by_cases small : q.log2 ≤ 52
  · have : q < 2 ^ 53 :=
      Nat.lt_of_lt_of_le Nat.lt_log2_self (Nat.pow_le_pow_right (by decide) (by omega))
    rw [Nat.sub_eq_zero_of_le small]
    exact ⟨by simpa using this, .inl rfl⟩
  · have nonzero : q ≠ 0 := by rintro rfl; simp at small
    have split : q.log2 = 52 + (q.log2 - 52) := by omega
    have lower : 2 ^ q.log2 ≤ q := Nat.log2_self_le nonzero
    have upper : q < 2 ^ (q.log2 + 1) := Nat.lt_log2_self
    refine ⟨(Nat.div_lt_iff_lt_mul (Nat.two_pow_pos _)).2 ?_,
      .inr ((Nat.le_div_iff_mul_le (Nat.two_pow_pos _)).2 ?_)⟩
    · rw [← Nat.pow_add, show 53 + (q.log2 - 52) = q.log2 + 1 by omega]; exact upper
    · rw [← Nat.pow_add, ← split]; exact lower

/-- The magnitude of a significand of at most `2 ^ 53` and an exponent, if it is not too
large; the significand `2 ^ 53` itself is carried into the exponent. -/
def Magnitude.pack? (significand exponent : Nat)
    (normal : exponent = 0 ∨ 2 ^ 52 ≤ significand) : Option Magnitude :=
  if full : significand < 2 ^ 53 then
    if fits : exponent ≤ 2045 then some ⟨significand, exponent, full, normal, fits⟩ else none
  else
    if fits : exponent + 1 ≤ 2045 then
      some ⟨2 ^ 52, exponent + 1, by decide, .inr (Nat.le_refl _), fits⟩
    else none

/-- The magnitude nearest to `n / d` units, a tie going to the even significand; none if that
is beyond the largest. -/
def Magnitude.nearest? (n d : Nat) : Option Magnitude :=
  let e := exponentFor (n / d)
  Magnitude.pack? (roundHalfEven n (d * 2 ^ e)) e <| by
    refine (significand_bounds (n / d)).2.imp id fun lower => ?_
    have := div_le_roundHalfEven n (d * 2 ^ e)
    rw [← Nat.div_div_eq_div_mul] at this
    exact Nat.le_trans lower this

/-- The exponent of a magnitude is the one at which its units have a full significand. -/
theorem exponentFor_units (m : Magnitude) : exponentFor m.units = m.exponent := by
  obtain ⟨s, e, hs, normal, he⟩ := m
  unfold exponentFor Magnitude.units
  dsimp only
  rcases normal with rfl | full
  · have : s.log2 < 53 := by
      by_cases zero : s = 0
      · simp [zero]
      · exact (Nat.log2_lt zero).2 hs
    rw [Nat.pow_zero, Nat.mul_one]
    omega
  · have nonzero : s * 2 ^ e ≠ 0 :=
      Nat.mul_ne_zero (by omega) (Nat.ne_of_gt (Nat.two_pow_pos e))
    have : (s * 2 ^ e).log2 = 52 + e := by
      refine (Nat.log2_eq_iff nonzero).2 ⟨?_, ?_⟩
      · rw [Nat.pow_add]
        exact Nat.mul_le_mul_right (2 ^ e) full
      · rw [show 52 + e + 1 = 53 + e by omega, Nat.pow_add]
        exact (Nat.mul_lt_mul_right (Nat.two_pow_pos e)).2 hs
    omega

/-- A magnitude is the nearest one to itself. -/
theorem Magnitude.nearest?_units (m : Magnitude) : Magnitude.nearest? m.units 1 = some m := by
  have significand : roundHalfEven m.units (1 * 2 ^ m.exponent) = m.significand := by
    rw [Nat.one_mul]
    exact roundHalfEven_mul _ (Nat.two_pow_pos _)
  unfold Magnitude.nearest? Magnitude.pack?
  simp only [Nat.div_one, exponentFor_units, significand]
  rw [dif_pos m.significand_lt, dif_pos m.exponent_le]

/-- The number nearest to `n / d` units, with the given sign; infinite if that is beyond the
largest. -/
def nearest (negative : Bool) (n d : Nat) : Binary64 :=
  match Magnitude.nearest? n d with
  | some m => .finite negative m
  | none => .infinite negative

theorem nearest_of_nearest? {negative : Bool} {n d : Nat} {m : Magnitude}
    (h : Magnitude.nearest? n d = some m) : nearest negative n d = .finite negative m := by
  unfold nearest
  rw [h]

/-- A number of units that a magnitude has is left as it is. -/
@[simp]
theorem nearest_units (negative : Bool) (m : Magnitude) :
    nearest negative m.units 1 = .finite negative m :=
  nearest_of_nearest? m.nearest?_units

/-- The number nearest to an integral number of units; `zeroSign` is the sign of zero. -/
def ofScaled (zeroSign : Bool) (z : Int) : Binary64 :=
  if z = 0 then zero zeroSign else nearest (decide (z < 0)) z.natAbs 1

/-- The number nearest to a natural number, with the given sign. -/
def ofNat (negative : Bool) (n : Nat) : Binary64 :=
  nearest negative (n * unitsPerOne) 1

/-- The number nearest to an integer; zero is the positive one. -/
def ofInt (z : Int) : Binary64 :=
  ofNat (decide (z < 0)) z.natAbs

/-- The number nearest to `significand · 2 ^ exponent`, with the given sign. -/
def ofDyadic (negative : Bool) (significand : Nat) (exponent : Int) : Binary64 :=
  let shift := exponent + 1074
  nearest negative (significand * 2 ^ shift.toNat) (2 ^ (-shift).toNat)

/-- The number one. -/
def one : Binary64 := ofNat false 1

end Binary64

end Formula
