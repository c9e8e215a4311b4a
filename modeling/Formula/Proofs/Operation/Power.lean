import Formula.Operation.Power
import Mathlib.Algebra.Order.Ring.Int
import Mathlib.Tactic.Linarith
import Mathlib.Tactic.Ring

/-!
# Exact powers of integers

Raising an integer to a non-negative integer squares its way to the exact power and gives up at
the first product that has more than sixty-four bits. It gives up only where it must:

* **Squaring** (`Power.timesPower?_eq`): the exact result is a multiple of every product on the
  way to it, and of every square that is still wanted. So if one of these is too large, the
  result is too. At the bounds this needs a look: `-2 ^ 63` is in range and `2 ^ 63` is not, but
  a product that is not the last one goes on to be multiplied by a square, and no square is
  `2 ^ 63` (`Integer.lt_square_of_not_fits`).
* **Exponents** (`Power.integerPower?_eq`): those that have more than thirty-two bits are out of
  reach for every base but zero and the units, and for these the power is known by parity.

`Power.power_integers` is what comes of it for the operation.
-/

namespace Formula

namespace Integer

variable {z : Int}

/-- An integer of more than sixty-four bits stays one when it is multiplied. -/
theorem not_fits_mul {y : Int} (hz : ¬Fits z) (hy : 0 < y) : ¬Fits (z * y) := by
  rw [Fits, not_and_or, not_le, not_lt] at hz ⊢
  obtain hz | hz := hz
  · left
    nlinarith
  · right
    nlinarith

/-- A square that is too large is beyond the upper bound, not at it. -/
theorem lt_square_of_not_fits {b : Int} (h : ¬Fits (b * b)) : 2 ^ 63 < b * b := by
  -- the square root of `2 ^ 63`, rounded down
  have hroot : ¬(-3037000499 ≤ b ∧ b ≤ 3037000499) := by
    intro hb
    refine h ⟨?_, ?_⟩ <;> nlinarith
  by_contra hle
  refine hroot ⟨?_, ?_⟩ <;> nlinarith

/-- No number but zero brings a power of a square back that is too large. -/
theorem not_fits_mul_pow {b : Int} (hz : z ≠ 0) (hb : ¬Fits (b * b)) {k : Nat} (hk : 0 < k) :
    ¬Fits (z * (b * b) ^ k) := by
  have hsquare : 2 ^ 63 < b * b := lt_square_of_not_fits hb
  have hpower : b * b ≤ (b * b) ^ k := le_self_pow₀ (by omega) (by omega)
  rw [Fits, not_and_or, not_le, not_lt]
  obtain hz | hz := lt_or_gt_of_ne hz
  · left
    nlinarith
  · right
    nlinarith

/-- A base other than zero and the units has no power of a large exponent. -/
theorem not_fits_pow {b : Int} (hb : 2 ≤ b.natAbs) {k : Nat} (hk : 64 ≤ k) : ¬Fits (b ^ k) := by
  have hpower : 2 ^ 64 ≤ (b ^ k).natAbs := by
    rw [Int.natAbs_pow]
    exact (Nat.pow_le_pow_right (by decide) hk).trans (Nat.pow_le_pow_left hb k)
  rw [Fits]
  omega

/-- The powers of minus one. -/
theorem ofInt?_neg_one_pow (k : Nat) :
    ofInt? ((-1) ^ k) = some (if (k : Int) % 2 = 0 then 1 else -1) := by
  obtain hk | hk := Nat.even_or_odd k
  · have hbit : (k : Int) % 2 = 0 := by exact_mod_cast Nat.even_iff.mp hk
    rw [hk.neg_one_pow, if_pos hbit]
    rfl
  · have hbit : (k : Int) % 2 = 1 := by exact_mod_cast Nat.odd_iff.mp hk
    rw [hk.neg_one_pow, hbit, if_neg (by decide)]
    rfl

end Integer

namespace Power

open Integer (ofInt? toInt_ne_of_ne)

variable {found base exponent : Int64}

/-! ### Squaring -/

/-- One step of the squaring: the product takes in the last bit of the exponent, and if there are
others, the base is squared. -/
theorem timesPower?_step (found base : Int64) (exponent : Nat) :
    timesPower? found base exponent =
      (ofInt? (found.toInt * base.toInt ^ (exponent % 2))).bind fun found =>
        if exponent ≤ 1 then some found
        else (product? base base).bind fun square => timesPower? found square (exponent / 2) := by
  rw [timesPower?]
  obtain hbit | hbit := Nat.mod_two_eq_zero_or_one exponent
  · rw [hbit, if_neg (by decide), Int.pow_zero, Int.mul_one, Integer.ofInt?_toInt]
    rfl
  · rw [hbit, if_pos rfl, Int.pow_succ, Int.pow_zero, Int.one_mul]
    rfl

/-- **Squaring finds the exact result**: a product on the way to it has more than sixty-four bits
only if the result has. -/
theorem timesPower?_eq (hfound : found.toInt ≠ 0) (hbase : base.toInt ≠ 0) (exponent : Nat) :
    timesPower? found base exponent = ofInt? (found.toInt * base.toInt ^ exponent) := by
  induction exponent using Nat.strongRecOn generalizing found base with
  | ind exponent ih =>
    have hresult : found.toInt * base.toInt ^ exponent =
        found.toInt * base.toInt ^ (exponent % 2) *
          (base.toInt * base.toInt) ^ (exponent / 2) := by
      conv_lhs => rw [← Nat.div_add_mod exponent 2]
      rw [pow_add, pow_mul, pow_two]
      ring
    have hsquare : 0 < base.toInt * base.toInt := mul_self_pos.mpr hbase
    rw [timesPower?_step, hresult]
    by_cases hfits : Integer.Fits (found.toInt * base.toInt ^ (exponent % 2))
    · obtain ⟨n, hn, hvalue⟩ := Integer.exists_ofInt?_of_fits hfits
      rw [hn, ← hvalue, Option.bind_some]
      by_cases hlast : exponent ≤ 1
      · have hhalf : exponent / 2 = 0 := by omega
        rw [if_pos hlast, hhalf, pow_zero, Int.mul_one, Integer.ofInt?_toInt]
      · -- the square is a factor of the result, since more of the exponent is left
        have hnonzero : n.toInt ≠ 0 := hvalue ▸ mul_ne_zero hfound (pow_ne_zero _ hbase)
        rw [if_neg hlast, product?]
        by_cases hroom : Integer.Fits (base.toInt * base.toInt)
        · obtain ⟨square, hs, heq⟩ := Integer.exists_ofInt?_of_fits hroom
          rw [hs, Option.bind_some, ih _ (by omega) hnonzero (by omega), heq]
        · rw [Integer.ofInt?_eq_none_iff.mpr hroom, Option.bind_none, eq_comm,
            Integer.ofInt?_eq_none_iff]
          exact Integer.not_fits_mul_pow hnonzero hroom (by omega)
    · rw [Integer.ofInt?_eq_none_iff.mpr hfits, Option.bind_none, eq_comm,
        Integer.ofInt?_eq_none_iff]
      exact Integer.not_fits_mul hfits (pow_pos hsquare _)

/-! ### Powers -/

/-- The exact power of an integer is found if it has at most sixty-four bits. -/
theorem integerPower?_eq (hexponent : 0 ≤ exponent.toInt) (hzero : base ≠ 0 ∨ exponent.toInt ≠ 0) :
    integerPower? base exponent = ofInt? (base.toInt ^ exponent.toInt.toNat) := by
  obtain ⟨k, hk⟩ := Int.eq_ofNat_of_zero_le hexponent
  rw [integerPower?, hk, Int.toNat_natCast]
  by_cases hb0 : base = 0
  · have hpos : k ≠ 0 := by
      rintro rfl
      exact hzero.elim (absurd hb0) (absurd hk)
    rw [if_pos (.inl hb0), hb0, show (0 : Int64).toInt = 0 from rfl, zero_pow hpos]
    rfl
  by_cases hb1 : base = 1
  · rw [if_pos (.inr hb1), hb1, show (1 : Int64).toInt = 1 from rfl, one_pow]
    rfl
  rw [if_neg (not_or.mpr ⟨hb0, hb1⟩)]
  by_cases hbneg : base = -1
  · rw [if_pos hbneg, hbneg, show (-1 : Int64).toInt = -1 from rfl, Integer.ofInt?_neg_one_pow]
  rw [if_neg hbneg, Integer.toUInt32?, hk]
  by_cases hnarrow : (k : Int) < 2 ^ 32
  · have hnat : (UInt32.ofNat k).toNat = k :=
      UInt32.toNat_ofNat_of_lt' (by rw [UInt32.size]; omega)
    rw [if_pos ⟨by omega, hnarrow⟩, Int.toNat_natCast]
    change timesPower? 1 base (UInt32.ofNat k).toNat = _
    rw [hnat, timesPower?_eq (by decide) (toInt_ne_of_ne hb0),
      show (1 : Int64).toInt = 1 from rfl, one_mul]
  · -- with an exponent of more than 32 bits only the bases above have powers that fit
    have hb : 2 ≤ base.toInt.natAbs := by
      have h0 : base.toInt ≠ 0 := toInt_ne_of_ne hb0
      have h1 : base.toInt ≠ 1 := toInt_ne_of_ne hb1
      have hneg : base.toInt ≠ -1 := toInt_ne_of_ne hbneg
      omega
    rw [if_neg fun h => hnarrow h.2, Integer.ofInt?_eq_none_iff.mpr
      (Integer.not_fits_pow hb (by omega))]
    rfl

/-- **Integer powers are exact whenever they fit.** Zero has no power of a non-positive exponent,
and a power of a negative exponent is a floating-point number. Any other power of two integers is
the exact integer if that has at most sixty-four bits, and else a floating-point number. -/
theorem power_integers (base exponent : Int64) :
    (base = 0 → exponent.toInt ≤ 0 →
      power [.integer base, .integer exponent] = .error (.domain "pow" .powerOfZero)) ∧
    (base ≠ 0 → exponent.toInt < 0 →
      power [.integer base, .integer exponent] =
        .ok (.float ((Binary64.ofInt64 base).pow (.ofInt64 exponent)))) ∧
    (0 ≤ exponent.toInt → ¬(base = 0 ∧ exponent = 0) →
      (Integer.Fits (base.toInt ^ exponent.toInt.toNat) →
        ∃ n : Int64, n.toInt = base.toInt ^ exponent.toInt.toNat ∧
          power [.integer base, .integer exponent] = .ok (.integer n)) ∧
      (¬Integer.Fits (base.toInt ^ exponent.toInt.toNat) →
        power [.integer base, .integer exponent] =
          .ok (.float ((Binary64.ofInt64 base).pow (.ofInt64 exponent))))) := by
  have hpower : power [.integer base, .integer exponent] = ofIntegers base exponent := rfl
  rw [hpower, ofIntegers]
  refine ⟨fun hbase hle => if_pos ⟨hbase, hle⟩, fun hbase hneg => ?_, fun hnonneg hzero => ?_⟩
  · rw [if_neg fun h => hbase h.1, if_pos hneg]
    rfl
  · have hdefined : base ≠ 0 ∨ exponent.toInt ≠ 0 := by
      by_contra h
      rw [not_or, not_not, not_not] at h
      exact hzero ⟨h.1, Int64.toInt_inj.mp h.2⟩
    have hpositive : ¬(base = 0 ∧ exponent.toInt ≤ 0) := fun h =>
      hdefined.elim (absurd h.1) (absurd (le_antisymm h.2 hnonneg))
    rw [if_neg hpositive, if_neg (not_lt.mpr hnonneg), integerPower?_eq hnonneg hdefined]
    refine ⟨fun hfits => ?_, fun hfits => ?_⟩
    · obtain ⟨n, hn, hvalue⟩ := Integer.exists_ofInt?_of_fits hfits
      rw [hn]
      exact ⟨n, hvalue, rfl⟩
    · rw [Integer.ofInt?_eq_none_iff.mpr hfits]
      rfl

/-- The least integer is a power, with `2 ^ 32` the last square on the way to it. -/
example : power [.integer (-2), .integer 63] = .ok (.integer Int64.minValue) := by
  decide +kernel

end Power

end Formula
