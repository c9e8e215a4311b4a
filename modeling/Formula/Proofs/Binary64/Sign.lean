import Formula.Binary64.Power
import Formula.Proofs.Binary64.Exact

/-!
# Signs of powers

A rounded result has the sign that it is rounded with, be it finite, zero or infinite
(`Binary64.hasSign_nearest`). So has the power of a magnitude, whichever limit or approximation it
is, and a power whose exponent is an integer has a sign that is known before it is computed: it is
negative exactly if the base is and the exponent is odd (`Binary64.hasSign_pow`).
-/

namespace Formula.Binary64

variable {x y : Binary64} {Y : Int} {negative : Bool}

theorem HasSign.ne_nan (h : HasSign negative x) : x ≠ nan := by
  rintro rfl
  cases h

/-- There is one zero of each sign. -/
theorem HasSign.eq_zero (h : HasSign negative x) (hzero : x.isZero = true) : x = zero negative := by
  cases h with
  | finite m =>
    obtain ⟨significand, exponent, hlt, hnormal, hle⟩ := m
    obtain rfl : significand = 0 := beq_iff_eq.mp hzero
    obtain rfl : exponent = 0 := hnormal.resolve_right (by decide)
    rfl
  | infinite => exact absurd hzero Bool.false_ne_true

theorem HasSign.ite {p : Prop} [Decidable p] (hx : HasSign negative x) (hy : HasSign negative y) :
    HasSign negative (if p then x else y) := by
  split
  · exact hx
  · exact hy

/-! ### Rounded results -/

theorem hasSign_zero (negative : Bool) : HasSign negative (zero negative) := .finite .zero

private theorem hasSign_ofNat (negative : Bool) (n : Nat) : HasSign negative (ofNat negative n) :=
  hasSign_nearest _ _ _

/-- Widening keeps the sign of an integer; zero is widened to the positive one. -/
theorem hasSign_ofInt64 (n : Int64) : HasSign (decide (n.toInt < 0)) (ofInt64 n) :=
  hasSign_ofNat _ _

private theorem hasSign_ofApproximate (negative : Bool) (n : Nat) (e : Int) :
    HasSign negative (ofApproximate negative n e) :=
  hasSign_nearest _ _ _

private theorem hasSign_ofExponential (negative : Bool) (p : Nat) (z : Int) :
    HasSign negative (ofExponential negative p z) :=
  .ite .infinite (.ite (hasSign_zero _) (hasSign_ofApproximate _ _ _))

/-! ### Powers -/

/-- The power of a magnitude has the sign that is given for it. -/
theorem hasSign_magnitudePower (negative : Bool) (hx : x ≠ nan) (hy : y ≠ nan) :
    HasSign negative (magnitudePower negative x y) := by
  cases x with
  | nan => exact absurd rfl hx
  | finite s a =>
    cases y with
    | nan => exact absurd rfl hy
    | finite t b =>
      exact .ite (.ite .infinite (hasSign_zero _)) (hasSign_ofExponential _ _ _)
    | infinite t => exact .ite (hasSign_ofNat _ _) (.ite (hasSign_zero _) .infinite)
  | infinite s =>
    cases y with
    | nan => exact absurd rfl hy
    | finite t b => exact .ite (hasSign_zero _) .infinite
    | infinite t => exact .ite (hasSign_zero _) .infinite

private theorem ne_nan_of_isInteger (hy : y.isInteger = true) : y ≠ nan := by
  rintro rfl
  exact Bool.false_ne_true hy

private theorem isOddInteger_of_isZero (hy : y.isZero = true) : y.isOddInteger = false := by
  cases y with
  | finite t b =>
    have hunits : b.units = 0 := b.units_eq_zero_iff.mpr (beq_iff_eq.mp hy)
    rw [isOddInteger, hunits, Nat.zero_div]
    exact Bool.and_false _
  | infinite t => rfl
  | nan => rfl

/-- A number that is equal to a positive one is not negative. -/
theorem isNegative_of_equal (hy : y.scaled? = some Y) (hpos : 0 < Y) (h : x.equal y = true) :
    x.isNegative = false := by
  cases x with
  | finite s a =>
    have hsigned : signed s a.units = Y := (equal_iff rfl hy).mp h
    obtain _ | _ := s
    · rfl
    · rw [signed_true] at hsigned
      omega
  | infinite s =>
    obtain ⟨t, b, rfl, -⟩ := exists_of_scaled? hy
    obtain _ | _ := s
    · rfl
    · exact absurd h Bool.false_ne_true
  | nan => rfl

/-- **The sign of a power.** A power with an integer for exponent is a number, and it is negative
exactly if the base is negative and the exponent is odd. -/
theorem hasSign_pow (hx : x ≠ nan) (hy : y.isInteger = true) :
    HasSign (x.isNegative && y.isOddInteger) (x.pow y) := by
  rw [pow]
  split
  · next hone =>
    have hpositive : (x.isNegative && y.isOddInteger) = false := by
      obtain hzero | hequal := hone
      · rw [isOddInteger_of_isZero hzero, Bool.and_false]
      · have hscaled : one.scaled? = some (signed false (1 * unitsPerOne)) :=
          scaled?_nearest (representable_mul_unitsPerOne (k := 1) (by decide)) false
        rw [isNegative_of_equal hscaled ?_ hequal, Bool.false_and]
        rw [signed_false, Nat.one_mul]
        exact Int.natCast_pos.mpr unitsPerOne_pos
    rw [hpositive]
    exact hasSign_ofNat false 1
  · split
    · next hfraction => exact absurd hy hfraction.2.1
    · exact hasSign_magnitudePower _ hx (ne_nan_of_isInteger hy)

end Formula.Binary64
