import Formula.Proofs.Operation.Arithmetic
import Mathlib.Algebra.Order.Field.Basic
import Mathlib.Data.Int.ModEq
import Mathlib.Data.Rat.Cast.Order
import Mathlib.Tactic.FieldSimp
import Mathlib.Tactic.Linarith
import Mathlib.Tactic.LinearCombination

/-!
# Division of integers

Two integers are divided in three ways: the quotient is truncated toward zero, or what is left of
the dividend is taken behind the truncated quotient, or behind the integer that is nearest to the
quotient. Which integers these are is said of the rational quotient (`Integer.IsTruncated`,
`Integer.IsNearest`), apart from how they are computed.

The nearest integer is never computed. The rest of the truncated division is taken, and the
divisor is taken out once more if the rest is more than half of it, or half of it while the
truncated quotient is odd. `Integer.exists_nearestRemainder_eq` says that this is the rest behind
the nearest integer, and `Operation.apply_integer_divisions` what comes of it for the operations.
-/

namespace Formula

namespace Integer

variable {a b : Int}

/-- The integer is the rational number without its fraction. -/
structure IsTruncated (x : ℚ) (q : Int) : Prop where
  abs_le : |(q : ℚ)| ≤ |x|
  abs_lt : |x| < |(q : ℚ)| + 1
  sign : 0 ≤ q * x

/-- No integer is nearer to the rational number; if another one is as near, this one is even. -/
structure IsNearest (x : ℚ) (n : Int) : Prop where
  le : ∀ k : Int, |x - n| ≤ |x - k|
  even : ∀ k : Int, k ≠ n → |x - k| = |x - n| → Even n

theorem abs_cast (z : Int) : |(z : ℚ)| = z.natAbs := by
  rw [← Int.cast_abs, Nat.cast_natAbs]

/-! ### The truncated quotient -/

theorem natAbs_tmod_lt (a : Int) (hb : b ≠ 0) : (a.tmod b).natAbs < b.natAbs := by
  rw [Int.natAbs_tmod]
  exact Nat.mod_lt _ (Int.natAbs_pos.mpr hb)

/-- The truncated division is that of the absolute values. -/
theorem natAbs_tdiv_mul_add (a b : Int) :
    (a.tdiv b).natAbs * b.natAbs + (a.tmod b).natAbs = a.natAbs := by
  rw [Int.natAbs_tdiv, Int.natAbs_tmod]
  exact Nat.div_add_mod' _ _

/-- The dividend without the rest keeps the sign of the dividend. -/
theorem tdiv_mul_mul_nonneg (a b : Int) : 0 ≤ a.tdiv b * b * a := by
  have hrest : a.tmod b * a ≤ a * a := by
    calc a.tmod b * a ≤ (a.tmod b * a).natAbs := Int.le_natAbs
      _ = (a.tmod b).natAbs * a.natAbs := by rw [Int.natAbs_mul, Nat.cast_mul]
      _ ≤ a.natAbs * a.natAbs := by
        have hle : (a.tmod b).natAbs ≤ a.natAbs := natAbs_tdiv_mul_add a b ▸ Nat.le_add_left _ _
        exact_mod_cast Nat.mul_le_mul_right _ hle
      _ = a * a := Int.natAbs_mul_self
  have hsplit : (b * a.tdiv b + a.tmod b) * a = a * a := by rw [Int.mul_tdiv_add_tmod]
  linarith

/-- Truncating division truncates the rational quotient. -/
theorem isTruncated_tdiv (a : Int) (hb : b ≠ 0) : IsTruncated (a / b) (a.tdiv b) := by
  have hb' : (b : ℚ) ≠ 0 := Int.cast_ne_zero.mpr hb
  have hpos : 0 < |(b : ℚ)| := abs_pos.mpr hb'
  have hsplit := natAbs_tdiv_mul_add a b
  have hlt := natAbs_tmod_lt a hb
  refine ⟨?_, ?_, ?_⟩
  · rw [abs_div, le_div_iff₀ hpos, abs_cast, abs_cast, abs_cast]
    exact_mod_cast hsplit ▸ Nat.le_add_right _ _
  · rw [abs_div, div_lt_iff₀ hpos, abs_cast, abs_cast, abs_cast]
    exact_mod_cast (show a.natAbs < ((a.tdiv b).natAbs + 1) * b.natAbs by rw [Nat.succ_mul]; omega)
  · have hvalue : (a.tdiv b : ℚ) * (a / b) = (a.tdiv b * b * a : Int) / (b * b : ℚ) := by
      push_cast
      field_simp
    rw [hvalue]
    exact div_nonneg (Int.cast_nonneg (tdiv_mul_mul_nonneg a b)) (mul_self_nonneg _)

/-! ### The nearest integer -/

/-- An integer is the nearest one to a quotient if the rest behind it is at most half the divisor,
and if the integer is even where the rest is half of it. -/
theorem isNearest_of_rest {x y : ℚ} {n : Int} (hy : y ≠ 0) (hrest : 2 * |x - n * y| ≤ |y|)
    (hties : 2 * |x - n * y| = |y| → Even n) : IsNearest (x / y) n := by
  have hpos : 0 < |y| := abs_pos.mpr hy
  have hdistance : |x / y - n| * |y| = |x - n * y| := by
    rw [← abs_mul, sub_mul, div_mul_cancel₀ x hy]
  have hhalf : 2 * |x / y - n| ≤ 1 := by
    rw [← hdistance, ← mul_assoc] at hrest
    exact le_of_mul_le_mul_right (by rwa [one_mul]) hpos
  -- every other integer is at least half a unit away
  have hother : ∀ k : Int, k ≠ n → 1 ≤ 2 * |x / y - k| := by
    intro k hk
    have hstep : (1 : ℚ) ≤ |(k : ℚ) - n| := by
      exact_mod_cast Int.one_le_abs (sub_ne_zero.mpr hk)
    have htriangle := abs_sub_le (k : ℚ) (x / y) n
    rw [abs_sub_comm (k : ℚ) (x / y)] at htriangle
    linarith
  refine ⟨fun k => ?_, fun k hk heq => hties ?_⟩
  · by_cases hk : k = n
    · rw [hk]
    · linarith [hother k hk]
  · have hexact : 2 * |x / y - n| = 1 := le_antisymm hhalf (heq ▸ hother k hk)
    rw [← hdistance, ← mul_assoc, hexact, one_mul]

/-- With the divisor taken out once more, what is left is as far from zero as the rest was from the
divisor. -/
theorem natAbs_sub_natAbs_mul_sign {r : Int} (hr : r ≠ 0) (hlt : r.natAbs < b.natAbs) :
    (r - b.natAbs * r.sign).natAbs = b.natAbs - r.natAbs := by
  obtain hneg | hpos := lt_or_gt_of_ne hr
  · rw [Int.sign_eq_neg_one_of_neg hneg]
    omega
  · rw [Int.sign_eq_one_of_pos hpos]
    omega

/-- The neighbour of an odd quotient is even, on whichever side it lies. -/
private theorem even_add_sign_mul_sign {q r : Int} (hq : q % 2 ≠ 0) (hr : r ≠ 0) (hb : b ≠ 0) :
    Even (q + r.sign * b.sign) := by
  have hodd : Odd q := Int.odd_iff.mpr (Int.emod_two_ne_zero.mp hq)
  exact hodd.add_odd ((Int.odd_sign_iff.mpr hr).mul (Int.odd_sign_iff.mpr hb))

/-- **What is left is left behind the nearest integer.** It is at most half the divisor, and the
integer is even where it is half of it. -/
theorem exists_nearestRemainder_eq (a : Int) (hb : b ≠ 0) :
    ∃ n : Int, nearestRemainder a b = a - n * b ∧
      2 * (nearestRemainder a b).natAbs ≤ b.natAbs ∧
      (2 * (nearestRemainder a b).natAbs = b.natAbs → Even n) := by
  have hsplit := Int.mul_tdiv_add_tmod a b
  have hlt := natAbs_tmod_lt a hb
  rw [nearestRemainder]
  split
  · next hcond =>
    have hr : a.tmod b ≠ 0 := by
      intro hr
      rw [hr] at hcond
      omega
    have hleft := natAbs_sub_natAbs_mul_sign hr hlt
    refine ⟨a.tdiv b + (a.tmod b).sign * b.sign, ?_, by omega, fun htie => ?_⟩
    · rw [← Int.sign_mul_self_eq_natAbs b]
      linear_combination hsplit
    · exact even_add_sign_mul_sign (hcond.resolve_left (by omega)).2 hr hb
  · next hcond =>
    refine ⟨a.tdiv b, by linear_combination hsplit, by omega, fun htie => ?_⟩
    exact Int.even_iff.mpr (by omega)

/-- The rest behind the nearest integer is that of the truncated division up to multiples of the
divisor. -/
theorem nearestRemainder_modEq (a : Int) (hb : b ≠ 0) :
    nearestRemainder a b ≡ a.tmod b [ZMOD b] := by
  obtain ⟨n, hn, -⟩ := exists_nearestRemainder_eq a hb
  rw [hn, Int.modEq_iff_dvd]
  refine ⟨n - a.tdiv b, ?_⟩
  linear_combination Int.mul_tdiv_add_tmod a b

/-- The exact quotient of rationals whose rest is that behind the nearest integer. -/
theorem isNearest_nearestRemainder {n : Int} (hb : b ≠ 0) (hn : nearestRemainder a b = a - n * b)
    (hle : 2 * (nearestRemainder a b).natAbs ≤ b.natAbs)
    (heven : 2 * (nearestRemainder a b).natAbs = b.natAbs → Even n) :
    IsNearest ((a : ℚ) / b) n := by
  have hrest : 2 * |(a : ℚ) - n * b| = (2 * (nearestRemainder a b).natAbs : Nat) := by
    have hcast : (a : ℚ) - n * b = (nearestRemainder a b : Int) := by
      rw [hn]
      push_cast
      rfl
    rw [hcast, abs_cast]
    push_cast
    rfl
  refine isNearest_of_rest (Int.cast_ne_zero.mpr hb) ?_ fun htie => heven ?_
  · rw [hrest, abs_cast]
    exact_mod_cast hle
  · rw [hrest, abs_cast] at htie
    exact_mod_cast htie

/-! ### Sixty-four bits -/

variable {m n : Int64}

/-- The truncated quotient has more than sixty-four bits only for the least integer and minus
one. -/
theorem fits_tdiv_iff (hb : n ≠ 0) :
    Fits (m.toInt.tdiv n.toInt) ↔ ¬(m = Int64.minValue ∧ n = -1) := by
  constructor
  · rintro hfits ⟨rfl, rfl⟩
    exact absurd hfits (by decide)
  · intro h
    by_contra hfits
    have hsplit := natAbs_tdiv_mul_add m.toInt n.toInt
    have hm := natAbs_toInt_le m
    have hn := toInt_ne_zero hb
    have hq : 2 ^ 63 ≤ (m.toInt.tdiv n.toInt).natAbs :=
      not_lt.mp fun hlt => hfits (fits_of_natAbs_lt hlt)
    -- the quotient leaves no room but for a divisor of one
    have hone : n.toInt.natAbs ≤ 1 := by
      by_contra htwo
      have hmul := Nat.mul_le_mul hq (show 2 ≤ n.toInt.natAbs by omega)
      omega
    obtain hn | hn : n.toInt = 1 ∨ n.toInt = -1 := by omega
    · rw [hn, Int.tdiv_one] at hfits
      exact hfits (fits_toInt m)
    · rw [hn] at hq
      rw [hn, show (-1 : Int).natAbs = 1 from rfl, Nat.mul_one] at hsplit
      have hlt := Int64.toInt_lt m
      refine h ⟨Int64.toInt_inj.mp ?_, Int64.toInt_inj.mp hn⟩
      rw [show Int64.minValue.toInt = -2 ^ 63 from rfl]
      omega

end Integer

/-! ### The operations -/

/-- A division by an integer other than zero is exact if its answer has at most sixty-four bits. -/
theorem Arithmetic.exists_combineDividing_eq (name : String) {exact : Int → Int → Int}
    (rounded : Binary64 → Binary64 → Binary64) {a b : Int64} (hb : b ≠ 0)
    (h : Integer.Fits (exact a.toInt b.toInt)) :
    ∃ n : Int64, n.toInt = exact a.toInt b.toInt ∧
      combineDividing name exact rounded [.integer a, .integer b] = .ok (.integer n) := by
  obtain ⟨n, hvalue, hn⟩ := Value.exists_exactOr_eq (rounded (.ofInt64 a) (.ofInt64 b)) h
  exact ⟨n, hvalue, (if_neg hb).trans (congrArg Except.ok hn)⟩

namespace Operation

variable {a b : Int64}

/-- The remainder of a division fits into sixty-four bits. -/
private theorem exists_apply_modulo_eq (a : Int64) (hb : b ≠ 0) :
    ∃ m : Int64, m.toInt = a.toInt.tmod b.toInt ∧
      modulo.apply [.integer a, .integer b] = .ok (.integer m) := by
  have hlt := Integer.natAbs_tmod_lt a.toInt (Integer.toInt_ne_zero hb)
  have hle := Integer.natAbs_toInt_le b
  exact Arithmetic.exists_combineDividing_eq "mod" Binary64.modulo hb
    (Integer.fits_of_natAbs_lt (by omega))

/-- The nearest remainder fits into sixty-four bits. -/
private theorem exists_apply_remainder_eq (a : Int64) (hb : b ≠ 0) :
    ∃ r : Int64, r.toInt = Integer.nearestRemainder a.toInt b.toInt ∧
      remainder.apply [.integer a, .integer b] = .ok (.integer r) := by
  obtain ⟨-, -, hhalf, -⟩ :=
    Integer.exists_nearestRemainder_eq a.toInt (Integer.toInt_ne_zero hb)
  have hle := Integer.natAbs_toInt_le b
  exact Arithmetic.exists_combineDividing_eq "rem" Binary64.remainder hb
    (Integer.fits_of_natAbs_lt (by omega))

/-- The quotient fits into sixty-four bits but for one pair. -/
private theorem exists_apply_divide_eq (hb : b ≠ 0) (h : ¬(a = Int64.minValue ∧ b = -1)) :
    ∃ q : Int64, q.toInt = a.toInt.tdiv b.toInt ∧
      divide.apply [.integer a, .integer b] = .ok (.integer q) :=
  Arithmetic.exists_combineDividing_eq "/" Binary64.div hb ((Integer.fits_tdiv_iff hb).mpr h)

/-- The quotient of the least integer by minus one is the floating-point number `2 ^ 63`. -/
theorem apply_divide_minValue :
    divide.apply [.integer Int64.minValue, .integer (-1)] =
      .ok (.float (.ofNat false (2 ^ 63))) := by
  decide +kernel

/-- **Division of integers.** By zero all three divisions fail. By any other divisor the quotient is
truncated, and given as an integer unless the least integer is divided by minus one; the first rest
is that of the truncated quotient, the second one that of the nearest integer. -/
theorem apply_integer_divisions (a b : Int64) :
    (b = 0 → ∀ o ∈ [divide, modulo, remainder],
      o.apply [.integer a, .integer b] = .error (.divisionByZero o.name)) ∧
    (b ≠ 0 → ∃ (q n : Int) (m r : Int64),
      Integer.IsTruncated (a.toInt / b.toInt) q ∧ Integer.IsNearest (a.toInt / b.toInt) n ∧
      (modulo.apply [.integer a, .integer b] = .ok (.integer m) ∧
        m.toInt = a.toInt - q * b.toInt ∧ m.toInt.natAbs < b.toInt.natAbs ∧
        (m.toInt = 0 ∨ m.toInt.sign = a.toInt.sign)) ∧
      (remainder.apply [.integer a, .integer b] = .ok (.integer r) ∧
        r.toInt = a.toInt - n * b.toInt ∧ 2 * r.toInt.natAbs ≤ b.toInt.natAbs ∧
        (2 * r.toInt.natAbs = b.toInt.natAbs → Even n) ∧ r.toInt ≡ m.toInt [ZMOD b.toInt]) ∧
      (Integer.Fits q ↔ ¬(a = Int64.minValue ∧ b = -1)) ∧
      (Integer.Fits q → ∃ k : Int64, k.toInt = q ∧
        divide.apply [.integer a, .integer b] = .ok (.integer k)) ∧
      (¬Integer.Fits q → ∃ x : Binary64, x.value? = some (2 ^ 63) ∧
        divide.apply [.integer a, .integer b] = .ok (.float x))) := by
  refine ⟨?_, fun hb => ?_⟩
  · rintro rfl o ho
    simp only [List.mem_cons, List.not_mem_nil, or_false] at ho
    obtain rfl | rfl | rfl := ho <;> rfl
  · have hb0 := Integer.toInt_ne_zero hb
    have hfits := Integer.fits_tdiv_iff (m := a) hb
    obtain ⟨n, hn, hhalf, heven⟩ := Integer.exists_nearestRemainder_eq a.toInt hb0
    obtain ⟨m, hmvalue, hm⟩ := exists_apply_modulo_eq a hb
    obtain ⟨r, hrvalue, hr⟩ := exists_apply_remainder_eq a hb
    refine ⟨a.toInt.tdiv b.toInt, n, m, r, Integer.isTruncated_tdiv _ hb0,
      Integer.isNearest_nearestRemainder hb0 hn hhalf heven, ⟨hm, ?_⟩, ⟨hr, ?_⟩, hfits,
      fun h => exists_apply_divide_eq hb (hfits.mp h), fun h => ?_⟩
    · rw [hmvalue]
      refine ⟨?_, Integer.natAbs_tmod_lt _ hb0, ?_⟩
      · linear_combination Int.mul_tdiv_add_tmod a.toInt b.toInt
      · by_cases hdvd : b.toInt ∣ a.toInt
        · exact .inl (Int.tmod_eq_zero_of_dvd hdvd)
        · exact .inr ((Int.sign_tmod _ _).trans (if_neg hdvd))
    · rw [hrvalue, hmvalue]
      exact ⟨hn, hhalf, heven, Integer.nearestRemainder_modEq _ hb0⟩
    · obtain ⟨rfl, rfl⟩ := not_not.mp (mt hfits.mpr h)
      exact ⟨_, Binary64.value?_ofNat (Binary64.representable_two_pow_mul_unitsPerOne (by decide))
        false, apply_divide_minValue⟩

/-- Six by four: the quotient is one, but the nearest integers are one and two, and two is even. -/
theorem apply_divisions_six_four :
    (4 : Int64) ≠ 0 ∧ divide.apply [.integer 6, .integer 4] = .ok (.integer 1) ∧
      modulo.apply [.integer 6, .integer 4] = .ok (.integer 2) ∧
      remainder.apply [.integer 6, .integer 4] = .ok (.integer (-2)) ∧
      remainder.apply [.integer 6, .integer 0] = .error (.divisionByZero "rem") := by
  have hfour : (4 : Int64) ≠ 0 := by decide
  obtain ⟨q, n, m, r, -, -, ⟨hm, hmvalue, hmlt, hmsign⟩, ⟨hr, hrvalue, hrle, hreven, -⟩, hfits, hq,
    -⟩ := (apply_integer_divisions 6 4).2 hfour
  obtain ⟨k, hkvalue, hk⟩ := hq (hfits.mpr (by decide))
  rw [show (4 : Int64).toInt = 4 from rfl] at hmvalue hmlt hrvalue hrle hreven
  rw [show (6 : Int64).toInt = 6 from rfl] at hmvalue hmsign hrvalue
  have hpos : 0 < m.toInt := by
    obtain hzero | hsign := hmsign
    · omega
    · exact Int.sign_eq_one_iff_pos.mp hsign
  have htwo : m = 2 := Int64.toInt_inj.mp (show m.toInt = 2 by omega)
  have hone : k = 1 := Int64.toInt_inj.mp (show k.toInt = 1 by omega)
  have hminus : r = -2 := by
    refine Int64.toInt_inj.mp (show r.toInt = -2 from ?_)
    have heven := Int.even_iff.mp (hreven (by omega))
    omega
  subst htwo hone hminus
  exact ⟨hfour, hk, hm, hr, (apply_integer_divisions 6 0).1 rfl remainder (by simp)⟩

end Operation

end Formula
