import Formula.Binary64.Integral
import Formula.Proofs.Binary64.Place

/-!
# Integral numbers

A finite number is integral or has less than 53 bits in front of the point
(`Binary64.Magnitude.dvd_or_lt`). So a number is either left as it is by rounding it to an integer,
or the integer is small enough to be a number itself.

Numbers are in order as their values are, the infinite ones at the ends (`Binary64.atMost_cases`).

A number with the value of an integer is taken for this integer if it has at most sixty-four bits
(`Binary64.toInt64?_of_value?`), for what is behind its point is found without rounding
(`Binary64.scaled?_fraction`); no other number is taken for an integer
(`Binary64.value?_of_toInt64?`). The integer is widened to the same value again
(`Binary64.value?_ofInt64`).
-/

namespace Formula.Binary64

variable {x y : Binary64} {s : Bool} {m : Magnitude} {i j z : Int} {p q : ℚ}

theorem unitsPerOne_cast_pos : (0 : ℚ) < unitsPerOne := Nat.cast_pos.mpr unitsPerOne_pos

/-- What is not integral is small. -/
theorem Magnitude.dvd_or_lt (m : Magnitude) :
    unitsPerOne ∣ m.units ∨ m.units < 2 ^ 52 * unitsPerOne := by
  obtain ⟨p, hp, hunits⟩ := exists_unitsPerOne_eq
  rw [hunits]
  obtain hlt | hle := Nat.lt_or_ge m.exponent p
  · right
    calc m.units < 2 ^ 53 * 2 ^ m.exponent := m.units_lt_two_pow_mul
      _ = 2 ^ 52 * 2 ^ (m.exponent + 1) := by rw [Nat.pow_succ]; omega
      _ ≤ 2 ^ 52 * 2 ^ p := Nat.mul_le_mul_left _ (Nat.pow_le_pow_right (by decide) hlt)
  · exact .inl ((Nat.pow_dvd_pow 2 hle).trans m.two_pow_dvd)

theorem value?_finite (s : Bool) (m : Magnitude) :
    (finite s m).value? = some ((signed s m.units : ℚ) / unitsPerOne) := rfl

/-- Only finite numbers have a value. -/
theorem exists_of_value? (h : x.value? = some q) :
    ∃ s m, x = finite s m ∧ q = (signed s m.units : ℚ) / unitsPerOne := by
  obtain ⟨X, hX, rfl⟩ := value?_eq_some_iff.mp h
  obtain ⟨s, m, rfl, rfl⟩ := exists_of_scaled? hX
  exact ⟨s, m, rfl, rfl⟩

/-- The value of an integer is a multiple of the units in one. -/
theorem scaled?_of_value? (h : x.value? = some (z : ℚ)) : x.scaled? = some (z * unitsPerOne) := by
  obtain ⟨X, hX, hz⟩ := value?_eq_some_iff.mp h
  rw [div_eq_iff unitsPerOne_cast_pos.ne'] at hz
  rw [hX, show X = z * unitsPerOne by exact_mod_cast hz]

theorem units_of_value? (h : (finite s m).value? = some (z : ℚ)) :
    m.units = z.natAbs * unitsPerOne ∧ signed s z.natAbs = z := by
  have hscaled := Option.some.inj (scaled?_of_value? h)
  have hunits : m.units = z.natAbs * unitsPerOne := by
    rw [← natAbs_signed s m.units, hscaled, Int.natAbs_mul, Int.natAbs_natCast]
  refine ⟨hunits, ?_⟩
  rw [hunits, signed_mul] at hscaled
  exact Int.eq_of_mul_eq_mul_right (Int.natCast_ne_zero.mpr unitsPerOne_pos.ne') hscaled

/-! ### Order -/

/-- Finite numbers are compared as their values. -/
theorem compare?_of_value? (hx : x.value? = some p) (hy : y.value? = some q) :
    x.compare? y = some (compare p q) := by
  obtain ⟨X, hX, rfl⟩ := value?_eq_some_iff.mp hx
  obtain ⟨Y, hY, rfl⟩ := value?_eq_some_iff.mp hy
  have hlt (i j : ℤ) : i < j ↔ (i : ℚ) / unitsPerOne < (j : ℚ) / unitsPerOne := by
    rw [div_lt_div_iff_of_pos_right unitsPerOne_cast_pos, Int.cast_lt]
  rw [compare?_of_scaled? hX hY]
  exact congrArg some (compare_congr (hlt X Y) (hlt Y X))

theorem compare?_of_integral (hx : x.value? = some (i : ℚ)) (hy : y.value? = some (j : ℚ)) :
    x.compare? y = some (compare i j) :=
  (compare?_of_value? hx hy).trans (congrArg some (compare_congr Int.cast_lt Int.cast_lt))

theorem less_iff_of_value? (hx : x.value? = some p) (hy : y.value? = some q) :
    x.less y = true ↔ p < q := by
  rw [less, compare?_of_value? hx hy, beq_iff_eq, Option.some_inj, compare_lt_iff_lt]

theorem equal_iff_of_value? (hx : x.value? = some p) (hy : y.value? = some q) :
    x.equal y = true ↔ p = q := by
  rw [equal, compare?_of_value? hx hy, beq_iff_eq, Option.some_inj, compare_eq_iff_eq]

private theorem atMost_iff_of_value? (hx : x.value? = some p) (hy : y.value? = some q) :
    x.atMost y = true ↔ p ≤ q := by
  rw [atMost, Bool.or_eq_true, less_iff_of_value? hx hy, equal_iff_of_value? hx hy, le_iff_lt_or_eq]

/-- Numbers in order are finite, but that the first may be the least of all or the second the
greatest. -/
theorem atMost_cases (h : x.atMost y = true) : x = infinite true ∨ y = infinite false ∨
    ∃ p q, x.value? = some p ∧ y.value? = some q ∧ p ≤ q := by
  cases x with
  | nan => cases (show false = true from h)
  | infinite s =>
    cases s with
    | true => exact .inl rfl
    | false =>
      cases y with
      | infinite t =>
        cases t with
        | true => cases (show false = true from h)
        | false => exact .inr (.inl rfl)
      | nan | finite t b => cases (show false = true from h)
  | finite s a =>
    cases y with
    | nan => cases (show false = true from h)
    | infinite t =>
      cases t with
      | true => cases (show false = true from h)
      | false => exact .inr (.inl rfl)
    | finite t b =>
      have hle := (atMost_iff_of_value? (value?_finite s a) (value?_finite t b)).mp h
      exact .inr (.inr ⟨_, _, value?_finite s a, value?_finite t b, hle⟩)

/-! ### Integers of sixty-four bits -/

/-- What truncation leaves of a number is a number. -/
private theorem Magnitude.representable_truncated (m : Magnitude) :
    Representable (m.truncated * unitsPerOne) := by
  obtain hdvd | hlt := m.dvd_or_lt
  · rw [truncated, Nat.div_mul_cancel hdvd]
    exact m.representable
  · have htruncated : m.truncated < 2 ^ 52 := (Nat.div_lt_iff_lt_mul unitsPerOne_pos).mpr hlt
    exact representable_mul_unitsPerOne (htruncated.trans (by decide))

/-- What truncation takes off a number is a number. -/
private theorem representable_mod_unitsPerOne (m : Magnitude) :
    Representable (m.units % unitsPerOne) := by
  obtain ⟨one, hone⟩ := representable_mul_unitsPerOne (k := 1) (by decide)
  rw [Nat.one_mul] at hone
  rw [← hone]
  refine representable_mod m one ?_
  rw [hone]
  exact unitsPerOne_pos.ne'

private theorem signed_sub_signed {a b : Nat} (s : Bool) (h : b ≤ a) :
    signed s a - signed s b = signed s (a - b) := by
  cases s <;> simp only [signed_false, signed_true] <;> omega

/-- What is behind the point is not rounded. -/
theorem scaled?_fraction (s : Bool) (m : Magnitude) :
    (finite s m).fraction.scaled? = some (signed s (m.units % unitsPerOne)) := by
  have htrunc : (finite s m).trunc.scaled? = some (signed s (m.truncated * unitsPerOne)) := by
    rw [trunc, ofNat, scaled?_nearest m.representable_truncated]
  have hrest : signed s m.units - signed s (m.truncated * unitsPerOne) =
      signed s (m.units % unitsPerOne) := by
    rw [Magnitude.truncated, signed_sub_signed s (Nat.div_mul_le_self _ _), Nat.mod_eq_sub_div_mul]
  have hx : (finite s m).scaled? = some (signed s m.units) := by rw [scaled?]
  have hrep : Representable (signed s m.units - signed s (m.truncated * unitsPerOne)).natAbs := by
    rw [hrest, natAbs_signed]
    exact representable_mod_unitsPerOne m
  rw [fraction, scaled?_sub hx htrunc hrep, hrest]

/-- Nothing is taken off exactly those numbers that are integral. -/
private theorem isZero_fraction_iff :
    (finite s m).fraction.isZero = true ↔ unitsPerOne ∣ m.units := by
  obtain ⟨t, r, hr, hrest⟩ := exists_of_scaled? (scaled?_fraction s m)
  have hunits : r.units = m.units % unitsPerOne := by
    rw [← natAbs_signed t r.units, hrest, natAbs_signed]
  rw [hr, isZero, beq_iff_eq, ← r.units_eq_zero_iff, hunits, Nat.dvd_iff_mod_eq_zero]

/-- The bound of the conversion is `2 ^ 63` exactly. -/
theorem value?_int64Bound : int64Bound.value? = some ((2 ^ 63 : ℤ) : ℚ) := by
  rw [int64Bound, value?_ofNat (representable_two_pow_mul_unitsPerOne (by decide)), signed_false,
    Nat.cast_pow, Nat.cast_ofNat]

theorem value?_neg (h : x.value? = some p) : x.neg.value? = some (-p) := by
  obtain ⟨X, hX, rfl⟩ := value?_eq_some_iff.mp h
  rw [value?, scaled?_neg hX, Option.map_some, Int.cast_neg, neg_div]

/-- The least integer of sixty-four bits has a bound for its value. -/
theorem value?_neg_int64Bound : int64Bound.neg.value? = some (Int64.minValue.toInt : ℚ) := by
  rw [value?_neg value?_int64Bound, ← Int.cast_neg]
  rfl

/-- An integral number is between the two bounds if it has at most sixty-four bits. -/
theorem between_bounds_iff (h : x.value? = some (z : ℚ)) :
    int64Bound.neg.atMost x = true ∧ x.less int64Bound = true ↔ Integer.Fits z := by
  rw [atMost_iff_of_value? value?_neg_int64Bound h, less_iff_of_value? h value?_int64Bound,
    Int.cast_le, Int.cast_lt]
  exact Iff.rfl

private theorem value?_of_dvd (h : unitsPerOne ∣ m.units) (s : Bool) :
    (finite s m).value? = some (signed s m.truncated : ℚ) := by
  have hunits : m.units = m.truncated * unitsPerOne := (Nat.div_mul_cancel h).symm
  rw [value?_finite, hunits, signed_mul, Int.cast_mul, Int.cast_natCast,
    mul_div_cancel_right₀ _ unitsPerOne_cast_pos.ne']

/-- An integral number is taken for its integer if this has at most sixty-four bits, and no other
number is taken for an integer. -/
theorem toInt64?_finite (s : Bool) (m : Magnitude) : (finite s m).toInt64? =
    if unitsPerOne ∣ m.units then Integer.ofInt? (signed s m.truncated) else none := by
  rw [toInt64?]
  by_cases hdvd : unitsPerOne ∣ m.units
  · have hguard : ((finite s m).isFinite && (finite s m).fraction.isZero &&
        int64Bound.neg.atMost (finite s m) && (finite s m).less int64Bound) = true ↔
        Integer.Fits (signed s m.truncated) := by
      rw [isZero_fraction_iff.mpr hdvd, isFinite, Bool.true_and, Bool.true_and, Bool.and_eq_true,
        between_bounds_iff (value?_of_dvd hdvd s)]
    rw [if_pos hdvd]
    by_cases hfits : Integer.Fits (signed s m.truncated)
    · rw [if_pos (hguard.mpr hfits), Integer.ofInt?_of_fits hfits, castInt64]
    · rw [if_neg (mt hguard.mp hfits), Integer.ofInt?_eq_none_iff.mpr hfits]
  · have hzero : (finite s m).fraction.isZero = false := by
      rw [← Bool.not_eq_true, isZero_fraction_iff]
      exact hdvd
    rw [hzero, Bool.and_false, Bool.false_and, Bool.false_and, if_neg Bool.false_ne_true,
      if_neg hdvd]

/-- A number with the value of an integer is taken for it. -/
theorem toInt64?_of_value? (h : x.value? = some (z : ℚ)) : x.toInt64? = Integer.ofInt? z := by
  obtain ⟨s, m, rfl, -⟩ := exists_of_value? h
  obtain ⟨hunits, hsigned⟩ := units_of_value? h
  rw [toInt64?_finite, Magnitude.truncated, hunits, if_pos (Nat.dvd_mul_left _ _),
    Nat.mul_div_cancel _ unitsPerOne_pos, hsigned]

/-- No other number is. -/
theorem value?_of_toInt64? {n : Int64} (h : x.toInt64? = some n) :
    x.value? = some (n.toInt : ℚ) := by
  cases x with
  | finite s m =>
    rw [toInt64?_finite] at h
    split at h
    · next hdvd => rw [value?_of_dvd hdvd, Integer.toInt_of_ofInt? h]
    · cases h
  | infinite s => cases h
  | nan => cases h

/-- A number is converted to an integer only if that is its value. -/
theorem toInt64?_eq_some_iff_value? {n : Int64} :
    x.toInt64? = some n ↔ x.value? = some (n.toInt : ℚ) :=
  ⟨value?_of_toInt64?, fun h => by rw [toInt64?_of_value? h, Integer.ofInt?_toInt]⟩

/-- Such a number is found again from the integer. -/
theorem value?_ofInt64 {n : Int64} (h : x.value? = some (n.toInt : ℚ)) :
    (ofInt64 n).value? = some (n.toInt : ℚ) := by
  obtain ⟨s, m, rfl, -⟩ := exists_of_value? h
  obtain ⟨hunits, -⟩ := units_of_value? h
  rw [ofInt64, ofInt, value?_ofNat (hunits ▸ m.representable), signed_natAbs]

end Formula.Binary64
