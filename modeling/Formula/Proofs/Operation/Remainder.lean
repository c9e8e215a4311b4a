import Formula.Proofs.Binary64.Exact
import Formula.Proofs.Operation.Division

/-!
# The remainder of floating-point numbers

The remainder of the division to the nearest integer is computed in floating point, with a doubling,
two differences and a division that all could be rounded. None of them is where it matters, so that
the remainder of two finite numbers is the exact one of their numbers of units
(`Binary64.scaled?_remainder`):

* the rest of the truncated division is exact, and comparing its double is right;
* the truncated quotient is asked for only in a tie, where the rest is half the divisor. Then the
  dividend is an odd multiple of the rest, so that its power of two is in the rest, and the
  difference and the quotient have no more significant bits than the dividend
  (`Binary64.representable_of_tie`);
* the divisor is taken out of the rest only if it is at most twice the rest.
-/

namespace Formula

open Integer (nearestRemainder)

namespace Binary64

variable {x y : Binary64} {X Y : Int}

/-- A dividend that is an odd multiple of the rest has the power of two of the dividend in the
rest: the next lower multiple can be represented, and the multiplier has at most 53 bits. -/
theorem representable_of_tie {a : Magnitude} {q r : Nat} (h : a.units = (2 * q + 1) * r)
    (hr : r ≠ 0) : Representable (q * (2 * r)) ∧ 2 * q + 1 < 2 ^ 53 := by
  have hcoprime : Nat.Coprime (2 ^ a.exponent) (2 * q + 1) :=
    Nat.Coprime.pow_left _ (by simp)
  have hdvd : 2 ^ a.exponent ∣ r := hcoprime.dvd_of_dvd_mul_left (h ▸ a.two_pow_dvd)
  refine ⟨a.representable_of_le ((hdvd.mul_left 2).mul_left q) ?_, ?_⟩
  · rw [h]
    nlinarith
  · have hle : (2 * q + 1) * 2 ^ a.exponent ≤ (2 * q + 1) * r :=
      Nat.mul_le_mul_left _ (Nat.le_of_dvd (Nat.pos_of_ne_zero hr) hdvd)
    exact Nat.lt_of_mul_lt_mul_right (hle.trans_lt (h ▸ a.units_lt_two_pow_mul))

/-- **The parity in a tie.** Where the rest is half the divisor, the test for an odd quotient sees
the truncated quotient. -/
theorem roundsToOdd_of_tie (hx : x.scaled? = some X) (hy : y.scaled? = some Y) (hY : Y ≠ 0)
    (htie : 2 * (X.tmod Y).natAbs = Y.natAbs) :
    ((x.sub (x.modulo y)).div y).roundsToOdd = true ↔ Odd (X.tdiv Y) := by
  have hsplit : X - X.tmod Y = X.tdiv Y * Y := by
    linear_combination -Int.mul_tdiv_add_tmod X Y
  obtain ⟨s, a, rfl, ha⟩ := exists_of_scaled? hx
  have hunits : a.units = (2 * (X.tdiv Y).natAbs + 1) * (X.tmod Y).natAbs := by
    rw [← natAbs_signed s a.units, ha, ← Integer.natAbs_tdiv_mul_add X Y, ← htie]
    ring
  obtain ⟨hdifference, hbits⟩ := representable_of_tie hunits (by omega)
  have hsub : ((finite s a).sub ((finite s a).modulo y)).scaled? = some (X.tdiv Y * Y) := by
    rw [← hsplit]
    refine scaled?_sub hx (scaled?_modulo hx hy hY) ?_
    rw [hsplit, Int.natAbs_mul, ← htie]
    exact hdifference
  exact roundsToOdd_iff (scaled?_div hsub hy hY (by omega))

/-- The divisor is taken out of the rest once more in the same cases as in exact arithmetic. -/
theorem remainder_eq (hx : x.scaled? = some X) (hy : y.scaled? = some Y) (hY : Y ≠ 0) :
    x.remainder y =
      if Y.natAbs < 2 * (X.tmod Y).natAbs ∨
          2 * (X.tmod Y).natAbs = Y.natAbs ∧ X.tdiv Y % 2 ≠ 0 then
        (x.modulo y).sub (y.abs.withSignOf (x.modulo y))
      else x.modulo y := by
  have hrest := scaled?_modulo hx hy hY
  rw [remainder]
  refine if_congr ?_ rfl rfl
  refine or_congr (greater_two_mul_iff hrest hy) ?_
  rw [equal_two_mul_iff hrest hy]
  refine and_congr_right fun htie => ?_
  rw [roundsToOdd_of_tie hx hy hY htie, Int.odd_iff, ← Int.emod_two_ne_zero]

/-- **The remainder of floating-point numbers is exact.** -/
theorem scaled?_remainder (hx : x.scaled? = some X) (hy : y.scaled? = some Y) (hY : Y ≠ 0) :
    (x.remainder y).scaled? = some (nearestRemainder X Y) := by
  have hrest := scaled?_modulo hx hy hY
  have hlt := Integer.natAbs_tmod_lt X hY
  rw [remainder_eq hx hy hY, nearestRemainder]
  split
  · next hcond =>
    have hr : X.tmod Y ≠ 0 := by
      intro hr
      rw [hr] at hcond
      omega
    have hsign := scaled?_withSignOf (scaled?_abs hy) hrest hr
    rw [Int.natAbs_natCast] at hsign
    refine scaled?_sub hrest hsign ?_
    rw [Integer.natAbs_sub_natAbs_mul_sign hr hlt]
    obtain ⟨s, a, -, ha⟩ := exists_of_scaled? hrest
    obtain ⟨t, b, -, hb⟩ := exists_of_scaled? hy
    rw [← ha, ← hb, natAbs_signed, natAbs_signed] at hcond hlt ⊢
    exact representable_sub hlt.le (by omega)
  · exact hrest

/-- A remainder of zero has the sign of the dividend. -/
theorem isNegative_remainder (hx : x.scaled? = some X) (hy : y.scaled? = some Y) (hY : Y ≠ 0)
    (hzero : nearestRemainder X Y = 0) : (x.remainder y).isNegative = x.isNegative := by
  have hlt := Integer.natAbs_tmod_lt X hY
  rw [remainder_eq hx hy hY]
  rw [nearestRemainder] at hzero
  split at hzero
  · next hcond =>
    have hr : X.tmod Y ≠ 0 := by
      intro hr
      rw [hr] at hcond
      omega
    have hleft := Integer.natAbs_sub_natAbs_mul_sign hr hlt
    rw [hzero] at hleft
    omega
  · next hcond =>
    rw [if_neg hcond, isNegative_modulo hx hy hY]

/-- Nothing is taken out of a finite number by an infinite one, whose quotient is zero. The double
of the number may be infinite as well, but zero is even. -/
theorem remainder_infinite (hx : x.scaled? = some X) (negative : Bool) :
    x.remainder (infinite negative) = x := by
  have hrest : x.modulo (infinite negative) = x := by
    obtain ⟨s, m, rfl, -⟩ := exists_of_scaled? hx
    rfl
  have hgreater : (two.mul x.abs).greater (infinite negative).abs = false := by
    obtain hdouble | ⟨hdouble, -⟩ := two_mul_abs hx
    · obtain ⟨s, m, hm, -⟩ := exists_of_scaled? hdouble
      rw [hm]
      rfl
    · rw [hdouble]
      rfl
  have heven : ¬((x.sub x).div (infinite negative)).roundsToOdd = true := by
    have hzero : (x.sub x).scaled? = some 0 := by
      rw [← Int.sub_self X]
      refine scaled?_sub hx hx ?_
      rw [Int.sub_self]
      exact Magnitude.zero.representable
    obtain ⟨s, m, hm, -⟩ := exists_of_scaled? hzero
    have hquotient :
        ((x.sub x).div (infinite negative)).scaled? = some ((0 : Int) * unitsPerOne) := by
      rw [hm, Int.zero_mul]
      exact congrArg some (signed_zero _)
    rw [roundsToOdd_iff hquotient]
    decide
  rw [remainder, hrest]
  exact if_neg (not_or.mpr ⟨Bool.eq_false_iff.mp hgreater, fun h => heven h.2⟩)

/-! ### Rational values -/

private theorem abs_scaled (z : Int) : |(z : ℚ) / unitsPerOne| = (z.natAbs : ℚ) / unitsPerOne := by
  rw [abs_div, Integer.abs_cast, Nat.abs_cast]

private theorem two_mul_scaled (k : Nat) :
    2 * ((k : ℚ) / unitsPerOne) = ((2 * k : Nat) : ℚ) / unitsPerOne := by
  push_cast
  ring

/-- A multiple of one number taken out of another, as rational numbers. -/
theorem value?_of_scaled? {p q : ℚ} {t Z : Int} (hX : (X : ℚ) / unitsPerOne = p)
    (hY : (Y : ℚ) / unitsPerOne = q) (hZ : Z = X - t * Y) (h : x.scaled? = some Z) :
    x.value? = some (p - t * q) ∧ |p - t * q| = (Z.natAbs : ℚ) / unitsPerOne := by
  have hvalue : (Z : ℚ) / unitsPerOne = p - t * q := by
    rw [← hX, ← hY, hZ]
    push_cast
    ring
  exact ⟨value?_eq_some_iff.mpr ⟨Z, h, hvalue⟩, hvalue ▸ abs_scaled Z⟩

section

variable {p q : ℚ} (hp : x.value? = some p) (hq : y.value? = some q) (hq0 : q ≠ 0)

include hp hq hq0

/-- The quotient of two numbers is the quotient of their numbers of units. -/
theorem exists_scaled?_of_value? :
    ∃ X Y : Int, (x.scaled? = some X ∧ (X : ℚ) / unitsPerOne = p) ∧
      (y.scaled? = some Y ∧ (Y : ℚ) / unitsPerOne = q) ∧ Y ≠ 0 ∧ p / q = (X : ℚ) / Y := by
  obtain ⟨X, hx, hX⟩ := value?_eq_some_iff.mp hp
  obtain ⟨Y, hy, hY⟩ := value?_eq_some_iff.mp hq
  refine ⟨X, Y, ⟨hx, hX⟩, ⟨hy, hY⟩, ?_, ?_⟩
  · rintro rfl
    exact hq0 (by rw [← hY, Int.cast_zero, zero_div])
  · have hunit : (unitsPerOne : ℚ) ≠ 0 := Nat.cast_ne_zero.mpr unitsPerOne_pos.ne'
    rw [← hX, ← hY, div_div_div_cancel_right₀ hunit]

/-- The remainder of two numbers is the exact rest behind the integer nearest to their quotient. -/
theorem value?_remainder :
    ∃ n : Int, Integer.IsNearest (p / q) n ∧ (x.remainder y).value? = some (p - n * q) ∧
      2 * |p - n * q| ≤ |q| ∧ (p - n * q = 0 → (x.remainder y).isNegative = x.isNegative) := by
  obtain ⟨X, Y, ⟨hx, hX⟩, ⟨hy, hY⟩, hY0, hquotient⟩ := exists_scaled?_of_value? hp hq hq0
  have hunit : (0 : ℚ) < unitsPerOne := Nat.cast_pos.mpr unitsPerOne_pos
  obtain ⟨n, hn, hle, heven⟩ := Integer.exists_nearestRemainder_eq X hY0
  obtain ⟨hvalue, habs⟩ := value?_of_scaled? hX hY hn (scaled?_remainder hx hy hY0)
  refine ⟨n, hquotient ▸ Integer.isNearest_nearestRemainder hY0 hn hle heven, hvalue, ?_,
    fun hzero => ?_⟩
  · rw [habs, ← hY, abs_scaled, two_mul_scaled, div_le_div_iff_of_pos_right hunit, Nat.cast_le]
    exact hle
  · rw [hzero, abs_zero, eq_comm, div_eq_zero_iff, or_iff_left hunit.ne', Nat.cast_eq_zero,
      Int.natAbs_eq_zero] at habs
    exact isNegative_remainder hx hy hY0 habs

/-- What the remainder of two numbers is computed from is right: the rest behind the truncated
quotient, the two comparisons of its double, and the parity of the quotient in a tie. -/
theorem value?_modulo :
    ∃ t : Int, Integer.IsTruncated (p / q) t ∧ (x.modulo y).value? = some (p - t * q) ∧
      ((two.mul (x.modulo y).abs).greater y.abs = true ↔ |q| < 2 * |p - t * q|) ∧
      ((two.mul (x.modulo y).abs).equal y.abs = true ↔ 2 * |p - t * q| = |q|) ∧
      (2 * |p - t * q| = |q| → (((x.sub (x.modulo y)).div y).roundsToOdd = true ↔ Odd t)) := by
  obtain ⟨X, Y, ⟨hx, hX⟩, ⟨hy, hY⟩, hY0, hquotient⟩ := exists_scaled?_of_value? hp hq hq0
  have hunit : (0 : ℚ) < unitsPerOne := Nat.cast_pos.mpr unitsPerOne_pos
  have hsplit : X.tmod Y = X - X.tdiv Y * Y := by
    linear_combination Int.mul_tdiv_add_tmod X Y
  have hrest := scaled?_modulo hx hy hY0
  obtain ⟨hvalue, habs⟩ := value?_of_scaled? hX hY hsplit hrest
  have htie : 2 * |p - X.tdiv Y * q| = |q| ↔ 2 * (X.tmod Y).natAbs = Y.natAbs := by
    rw [habs, ← hY, abs_scaled, two_mul_scaled, div_left_inj' hunit.ne', Nat.cast_inj]
  refine ⟨X.tdiv Y, hquotient ▸ Integer.isTruncated_tdiv X hY0, hvalue, ?_, ?_,
    fun h => roundsToOdd_of_tie hx hy hY0 (htie.mp h)⟩
  · rw [greater_two_mul_iff hrest hy, habs, ← hY, abs_scaled, two_mul_scaled,
      div_lt_div_iff_of_pos_right hunit, Nat.cast_lt]
  · exact (equal_two_mul_iff hrest hy).trans htie.symm

end

end Binary64

private theorem Operation.apply_remainder_eq (a : Binary64) {b : Binary64} (hb : b.isZero = false) :
    Operation.remainder.apply [.float a, .float b] = .ok (.float (a.remainder b)) :=
  if_neg (Bool.eq_false_iff.mp hb)

/-- **The remainder of floating-point numbers.** -/
theorem Operation.apply_remainder_floats :
    (∀ (a b : Binary64) (p q : ℚ), a.value? = some p → b.value? = some q → q ≠ 0 →
      (∃ (r : Binary64) (n : Int),
        Operation.remainder.apply [.float a, .float b] = .ok (.float r) ∧
        Integer.IsNearest (p / q) n ∧ r.value? = some (p - n * q) ∧ 2 * |p - n * q| ≤ |q| ∧
        (p - n * q = 0 → r.isNegative = a.isNegative)) ∧
      ∃ t : Int, Integer.IsTruncated (p / q) t ∧ (a.modulo b).value? = some (p - t * q) ∧
        ((Binary64.two.mul (a.modulo b).abs).greater b.abs = true ↔ |q| < 2 * |p - t * q|) ∧
        ((Binary64.two.mul (a.modulo b).abs).equal b.abs = true ↔ 2 * |p - t * q| = |q|) ∧
        (2 * |p - t * q| = |q| →
          (((a.sub (a.modulo b)).div b).roundsToOdd = true ↔ Odd t))) ∧
    ∀ (a : Binary64) (p : ℚ) (negative : Bool), a.value? = some p →
      Operation.remainder.apply [.float a, .float (.infinite negative)] = .ok (.float a) := by
  refine ⟨fun a b p q hp hq hq0 => ⟨?_, Binary64.value?_modulo hp hq hq0⟩,
    fun a p negative hp => ?_⟩
  · obtain ⟨X, Y, -, ⟨hy, -⟩, hY0, -⟩ := Binary64.exists_scaled?_of_value? hp hq hq0
    obtain ⟨n, hnearest, hr⟩ := Binary64.value?_remainder hp hq hq0
    exact ⟨a.remainder b, n,
      Operation.apply_remainder_eq a (Binary64.isZero_eq_false hy hY0), hnearest, hr⟩
  · obtain ⟨X, hx, -⟩ := Binary64.value?_eq_some_iff.mp hp
    rw [Operation.apply_remainder_eq a rfl, Binary64.remainder_infinite hx]

/-- Six less four is minus two, because two is nearest to one and a half and even. -/
theorem Operation.apply_remainder_six_four :
    (Binary64.ofNat false 6).value? = some 6 ∧ (Binary64.ofNat false 4).value? = some 4 ∧
      (4 : ℚ) ≠ 0 ∧
      (∃ r : Binary64, Operation.remainder.apply
          [.float (Binary64.ofNat false 6), .float (Binary64.ofNat false 4)] = .ok (.float r) ∧
        r.value? = some (-2)) ∧
      Operation.remainder.apply [.float (Binary64.ofNat false 6), .float (.infinite true)] =
        .ok (.float (Binary64.ofNat false 6)) := by
  have hsix : (Binary64.ofNat false 6).value? = some 6 :=
    Binary64.value?_ofNat (Binary64.representable_mul_unitsPerOne (by decide)) false
  have hfour : (Binary64.ofNat false 4).value? = some 4 :=
    Binary64.value?_ofNat (Binary64.representable_mul_unitsPerOne (by decide)) false
  refine ⟨hsix, hfour, by norm_num, ?_, Operation.apply_remainder_floats.2 _ 6 true hsix⟩
  obtain ⟨⟨r, n, hr, hnearest, hvalue, hle, -⟩, -⟩ :=
    Operation.apply_remainder_floats.1 _ _ 6 4 hsix hfour (by norm_num)
  refine ⟨r, hr, ?_⟩
  have hn : n = 2 := by
    rw [abs_of_pos (show (0 : ℚ) < 4 by norm_num)] at hle
    have hbounds := abs_le.mp (show |(6 : ℚ) - n * 4| ≤ 2 by linarith)
    have hone : 1 ≤ n := by
      exact_mod_cast (show (1 : ℚ) ≤ n by linarith)
    have htwo : n ≤ 2 := by
      exact_mod_cast (show (n : ℚ) ≤ 2 by linarith)
    by_contra hne
    obtain rfl : n = 1 := by omega
    have heven := hnearest.even 2 (by decide) (by norm_num)
    exact absurd heven (by decide)
  rw [hvalue, hn]
  norm_num

end Formula
