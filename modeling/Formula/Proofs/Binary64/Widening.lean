import Formula.Binary64.Power
import Formula.Proofs.Binary64.Exact

/-!
# Widened integers

A whole number is widened to the nearest floating-point number. Below `2 ^ 53` that is the number
itself. From there on the numbers of the format are even integers, so that the number is widened to
an even one, whatever its own parity is: `Binary64.isOddInteger_ofInt64_iff` says which integers are
still odd when they are widened.
-/

namespace Formula.Binary64

variable {n d k : Nat}

/-- A rounded significand is packed to a magnitude unless its exponent is too large. -/
theorem Magnitude.exists_pack?_eq {significand exponent : Nat}
    (normal : exponent = 0 ∨ 2 ^ 52 ≤ significand) (hle : significand ≤ 2 ^ 53)
    (h : exponent < 2045) :
    ∃ m, pack? significand exponent normal = some m ∧ m.units = significand * 2 ^ exponent := by
  rw [pack?]
  split
  · exact ⟨_, dif_pos h.le, rfl⟩
  · refine ⟨_, dif_pos h, ?_⟩
    change 2 ^ 52 * 2 ^ (exponent + 1) = significand * 2 ^ exponent
    have hfull : significand = 2 ^ 53 := by omega
    rw [hfull, Nat.pow_succ]
    omega

/-- The units of the nearest magnitude are the rounded quotient, times its power of two. -/
theorem Magnitude.exists_nearest?_eq (h : exponentFor (n / d) < 2045) :
    ∃ m, nearest? n d = some m ∧
      m.units = roundHalfEven n (d * 2 ^ exponentFor (n / d)) * 2 ^ exponentFor (n / d) := by
  refine exists_pack?_eq _ ?_ h
  have hbits := (significand_bounds (n / d)).1
  rw [Nat.div_div_eq_div_mul] at hbits
  exact (roundHalfEven_le_succ _ _).trans hbits

/-- A whole number is widened to a finite number, which is a whole number as well: the same one if
it has at most 53 bits, and else an even one that has no fewer. -/
theorem exists_ofNat_eq (hk : k < 2 ^ 64) (negative : Bool) :
    ∃ j, (ofNat negative k).scaled? = some (signed negative (j * unitsPerOne)) ∧
      (k < 2 ^ 53 → j = k) ∧ (2 ^ 53 ≤ k → Even j ∧ 2 ^ 53 ≤ j) := by
  by_cases hsmall : k < 2 ^ 53
  · refine ⟨k, scaled?_nearest (representable_mul_unitsPerOne hsmall) negative, fun _ => rfl,
      fun h => absurd h (not_le.mpr hsmall)⟩
  · -- beyond 53 bits the spacing is two at least, and the rounded number a multiple of it
    obtain ⟨p, hp, hunits⟩ := exists_unitsPerOne_eq
    have hne : k * unitsPerOne ≠ 0 := Nat.mul_ne_zero (by omega) unitsPerOne_pos.ne'
    have hlow : 53 + p ≤ (k * unitsPerOne).log2 := by
      rw [Nat.le_log2 hne, hunits, Nat.pow_add]
      exact Nat.mul_le_mul_right _ (not_lt.mp hsmall)
    have hhigh : (k * unitsPerOne).log2 < 64 + p := by
      rw [Nat.log2_lt hne, hunits, Nat.pow_add]
      exact (Nat.mul_lt_mul_right (Nat.two_pow_pos p)).mpr hk
    have hexponent : p + 1 ≤ exponentFor (k * unitsPerOne) ∧
        exponentFor (k * unitsPerOne) < 2045 := by
      rw [exponentFor]
      omega
    obtain ⟨m, hm, hround⟩ := Magnitude.exists_nearest?_eq (n := k * unitsPerOne) (d := 1)
      (by rw [Nat.div_one]; exact hexponent.2)
    rw [Nat.div_one] at hround
    obtain ⟨j, hj⟩ : 2 ^ (p + 1) ∣ m.units :=
      hround ▸ (Nat.pow_dvd_pow 2 hexponent.1).mul_left _
    have hunits' : m.units = 2 * j * unitsPerOne := by
      rw [hj, Nat.pow_succ, hunits]
      ring
    have hfull : 2 ^ 52 ≤ j := by
      have hquotient := (significand_bounds (k * unitsPerOne)).2.resolve_left (by omega)
      refine Nat.le_of_mul_le_mul_right (c := 2 ^ (p + 1)) ?_ (Nat.two_pow_pos _)
      calc 2 ^ 52 * 2 ^ (p + 1)
          ≤ roundHalfEven (k * unitsPerOne) (1 * 2 ^ exponentFor (k * unitsPerOne)) *
              2 ^ exponentFor (k * unitsPerOne) := by
            rw [Nat.one_mul]
            exact Nat.mul_le_mul (hquotient.trans (div_le_roundHalfEven _ _))
              (Nat.pow_le_pow_right (by decide) hexponent.1)
        _ = j * 2 ^ (p + 1) := by rw [← hround, hj, Nat.mul_comm]
    refine ⟨2 * j, ?_, fun h => absurd h hsmall, fun _ => ⟨even_two_mul j, by omega⟩⟩
    rw [ofNat, nearest_of_nearest? hm, scaled?, hunits']

/-! ### Parity -/

variable {x : Binary64} {negative : Bool}

private theorem isInteger_of_scaled? (hx : x.scaled? = some (signed negative (k * unitsPerOne))) :
    x.isInteger = true := by
  obtain ⟨s, m, rfl, hm⟩ := exists_of_scaled? hx
  have hunits : m.units = k * unitsPerOne := by
    rw [← natAbs_signed s m.units, hm, natAbs_signed]
  rw [isInteger, hunits, Nat.mul_mod_left, beq_self_eq_true]

/-- The parity of an integral number is that of its units, counted in ones. -/
private theorem isOddInteger_of_scaled?
    (hx : x.scaled? = some (signed negative (k * unitsPerOne))) :
    x.isOddInteger = true ↔ Odd k := by
  obtain ⟨s, m, rfl, hm⟩ := exists_of_scaled? hx
  have hunits : m.units = k * unitsPerOne := by
    rw [← natAbs_signed s m.units, hm, natAbs_signed]
  rw [isOddInteger, hunits, Nat.mul_mod_left, Nat.mul_div_cancel _ unitsPerOne_pos,
    beq_self_eq_true, Bool.true_and, beq_iff_eq, Nat.odd_iff]

theorem isInteger_ofInt64 (n : Int64) : (ofInt64 n).isInteger = true := by
  have hle := Integer.natAbs_toInt_le n
  obtain ⟨j, hj, -⟩ := exists_ofNat_eq (k := n.toInt.natAbs) (by omega) (decide (n.toInt < 0))
  exact isInteger_of_scaled? hj

/-- An integer is odd when it is widened if it is odd and has at most 53 bits. -/
theorem isOddInteger_ofInt64_iff (n : Int64) :
    (ofInt64 n).isOddInteger = true ↔ Odd n.toInt ∧ n.toInt.natAbs < 2 ^ 53 := by
  have hle := Integer.natAbs_toInt_le n
  obtain ⟨j, hj, hsmall, hlarge⟩ :=
    exists_ofNat_eq (k := n.toInt.natAbs) (by omega) (decide (n.toInt < 0))
  refine (isOddInteger_of_scaled? hj).trans ?_
  rw [← Int.natAbs_odd]
  obtain hlt | hge := Nat.lt_or_ge n.toInt.natAbs (2 ^ 53)
  · rw [hsmall hlt, and_iff_left hlt]
  · have heven := Nat.not_odd_iff_even.mpr (hlarge hge).1
    exact iff_of_false heven fun h => absurd h.2 (not_lt.mpr hge)

end Formula.Binary64
