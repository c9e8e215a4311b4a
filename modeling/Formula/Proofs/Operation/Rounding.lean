import Formula.Operation.Apply
import Formula.Proofs.Binary64.Integral

/-!
# Rounding to integers

`Operation.RoundsTo` says which integer a rational number is rounded to by the floor, the ceiling
and the nearest integer, where halves go away from zero. A finite number is rounded to this
integer, with nothing lost: an integral number is left as it is, and for any other the integer has
at most 53 bits (`Operation.exists_roundsTo`).

The result is an integer of sixty-four bits exactly if the number is at least `-2 ^ 63` and below
`2 ^ 63`, for in both directions a number beyond `2 ^ 52` is integral and is its own rounding.
`Operation.RoundsNumbers` puts together what holds of each of the three operations.
-/

namespace Formula

open Binary64 (signed unitsPerOne)

namespace Operation

variable {o : Operation} {f : Binary64 → Binary64} {n d k : Nat} {p q : ℚ} {i j : ℤ}

/-- The operation rounds the number to the integer. -/
def RoundsTo : Operation → ℚ → ℤ → Prop
  | .floor, q, i => i ≤ q ∧ q < i + 1
  | .ceiling, q, i => (i : ℚ) - 1 < q ∧ q ≤ i
  | .round, q, i => |q - i| ≤ 1 / 2 ∧ (|q - i| = 1 / 2 → |q| < |(i : ℚ)|)
  | _, _, _ => False

/-- What the quotient `n / d` with a sign is rounded to, the sign aside. -/
def roundQuotient (o : Operation) (negative : Bool) (n d : Nat) : Nat :=
  match o, negative with
  | .floor, false | .ceiling, true => n / d
  | .floor, true | .ceiling, false => (n + (d - 1)) / d
  | _, _ => (2 * n + d) / (2 * d)

theorem rounding?_cases (h : o.rounding? = some f) :
    o = .floor ∧ f = Binary64.floor ∨ o = .ceiling ∧ f = Binary64.ceiling ∨
      o = .round ∧ f = Binary64.round := by
  cases o with
  | floor => exact .inl ⟨rfl, (Option.some.inj h).symm⟩
  | ceiling => exact .inr (.inl ⟨rfl, (Option.some.inj h).symm⟩)
  | round => exact .inr (.inr ⟨rfl, (Option.some.inj h).symm⟩)
  | _ => cases h

/-- A finite number is rounded as the quotient of its units. -/
theorem rounding_finite (h : o.rounding? = some f) (s : Bool) (m : Binary64.Magnitude) :
    f (.finite s m) = .ofNat s (o.roundQuotient s m.units unitsPerOne) := by
  obtain ⟨rfl, rfl⟩ | ⟨rfl, rfl⟩ | ⟨rfl, rfl⟩ := rounding?_cases h
  · rw [Binary64.floor, Binary64.Magnitude.raised, Binary64.Magnitude.truncated]
    cases s <;> simp only [roundQuotient, if_true, Bool.false_eq_true, if_false]
  · rw [Binary64.ceiling, Binary64.Magnitude.raised, Binary64.Magnitude.truncated]
    cases s <;> simp only [roundQuotient, if_true, Bool.false_eq_true, if_false]
  · rw [Binary64.round, Binary64.Magnitude.rounded]
    cases s <;> simp only [roundQuotient]

/-! ### Rounding quotients -/

/-- Division that rounds up is bounded by the multiples of the divisor. -/
theorem div_add_pred_le_iff (hd : 0 < d) : (n + (d - 1)) / d ≤ k ↔ n ≤ k * d := by
  rw [Nat.div_le_iff_le_mul_add_pred hd, Nat.mul_comm]
  omega

/-- A quotient rounded downward. -/
theorem div_bounds (n : Nat) (hd : 0 < d) :
    ((n / d : Nat) : ℚ) ≤ (n : ℚ) / d ∧ (n : ℚ) / d < (n / d : Nat) + 1 := by
  have hpos : (0 : ℚ) < d := Nat.cast_pos.mpr hd
  have hlower : ((n / d : Nat) : ℚ) * d ≤ n := by exact_mod_cast Nat.div_mul_le_self n d
  have hupper : (n : ℚ) < ((n / d : Nat) + 1) * d := by
    exact_mod_cast (Nat.div_lt_iff_lt_mul hd).mp (Nat.lt_succ_self (n / d))
  exact ⟨(le_div_iff₀ hpos).mpr hlower, (div_lt_iff₀ hpos).mpr hupper⟩

/-- A quotient rounded upward. -/
theorem div_add_pred_bounds (n : Nat) (hd : 0 < d) :
    (((n + (d - 1)) / d : Nat) : ℚ) - 1 < (n : ℚ) / d ∧
      (n : ℚ) / d ≤ ((n + (d - 1)) / d : Nat) := by
  have hpos : (0 : ℚ) < d := Nat.cast_pos.mpr hd
  have hlower : (n + (d - 1)) / d * d < n + d := by
    have hle := Nat.div_mul_le_self (n + (d - 1)) d
    omega
  have hupper : n ≤ (n + (d - 1)) / d * d := (div_add_pred_le_iff hd).mp le_rfl
  generalize (n + (d - 1)) / d = k at hlower hupper
  refine ⟨(lt_div_iff₀ hpos).mpr ?_, (div_le_iff₀ hpos).mpr (by exact_mod_cast hupper)⟩
  have hcast : (k : ℚ) * d < n + d := by exact_mod_cast hlower
  linarith

/-- A quotient rounded to the nearest number, halves upward. -/
theorem div_half_bounds (n : Nat) (hd : 0 < d) :
    (((2 * n + d) / (2 * d) : Nat) : ℚ) - 1 / 2 ≤ (n : ℚ) / d ∧
      (n : ℚ) / d < ((2 * n + d) / (2 * d) : Nat) + 1 / 2 := by
  have hpos : (0 : ℚ) < d := Nat.cast_pos.mpr hd
  have hlower := Nat.div_mul_le_self (2 * n + d) (2 * d)
  have hupper : 2 * n + d < ((2 * n + d) / (2 * d) + 1) * (2 * d) :=
    (Nat.div_lt_iff_lt_mul (by omega)).mp (Nat.lt_succ_self _)
  generalize (2 * n + d) / (2 * d) = k at hlower hupper
  have hlower' : (k : ℚ) * (2 * d) ≤ 2 * n + d := by exact_mod_cast hlower
  have hupper' : 2 * (n : ℚ) + d < (k + 1) * (2 * d) := by exact_mod_cast hupper
  exact ⟨(le_div_iff₀ hpos).mpr (by linarith), (div_lt_iff₀ hpos).mpr (by linarith)⟩

/-- The nearest integer of the opposite number. -/
theorem RoundsTo.neg (h : round.RoundsTo q i) : round.RoundsTo (-q) (-i) := by
  have habs : |-q - ((-i : ℤ) : ℚ)| = |q - i| := by
    rw [Int.cast_neg, neg_sub_neg, abs_sub_comm]
  rw [RoundsTo, habs, Int.cast_neg, abs_neg, abs_neg]
  exact h

/-- The nearest integer to a quotient, halves away from zero. -/
theorem roundsTo_half {x : ℚ} (hx : 0 ≤ x) (hlower : (k : ℚ) - 1 / 2 ≤ x) (hupper : x < k + 1 / 2)
    (s : Bool) : round.RoundsTo (if s then -x else x) (signed s k) := by
  have habs : |x - k| ≤ 1 / 2 := abs_le.mpr ⟨by linarith, by linarith⟩
  have htie : |x - k| = 1 / 2 → |x| < |(k : ℚ)| := by
    intro h
    rw [abs_of_nonneg hx, abs_of_nonneg (Nat.cast_nonneg k)]
    obtain h | h := (abs_eq (by norm_num)).mp h <;> linarith
  have hrounds : round.RoundsTo x k := ⟨habs, htie⟩
  cases s with
  | false => exact hrounds
  | true => exact hrounds.neg

/-- **A quotient is rounded as a rational number.** -/
theorem roundsTo_roundQuotient (h : o.rounding? = some f) (s : Bool) (n : Nat) (hd : 0 < d) :
    o.RoundsTo ((signed s n : ℚ) / d) (signed s (o.roundQuotient s n d)) := by
  have hsigned : ((signed s n : ℚ) / d) = if s then -((n : ℚ) / d) else (n : ℚ) / d := by
    cases s with
    | false => rfl
    | true => rw [Binary64.signed_true, Int.cast_neg, Int.cast_natCast, neg_div, if_pos rfl]
  obtain ⟨hdown, hdown'⟩ := div_bounds n hd
  obtain ⟨hup, hup'⟩ := div_add_pred_bounds n hd
  obtain ⟨hhalf, hhalf'⟩ := div_half_bounds n hd
  rw [hsigned]
  obtain ⟨rfl, -⟩ | ⟨rfl, -⟩ | ⟨rfl, -⟩ := rounding?_cases h
  · cases s with
    | false => exact ⟨hdown, hdown'⟩
    | true =>
      rw [if_pos rfl, RoundsTo, roundQuotient, Binary64.signed_true, Int.cast_neg,
        Int.cast_natCast]
      exact ⟨by linarith, by linarith⟩
  · cases s with
    | false => exact ⟨hup, hup'⟩
    | true =>
      rw [if_pos rfl, RoundsTo, roundQuotient, Binary64.signed_true, Int.cast_neg,
        Int.cast_natCast]
      exact ⟨by linarith, by linarith⟩
  · have hquotient : (0 : ℚ) ≤ n / d := div_nonneg (Nat.cast_nonneg n) (Nat.cast_nonneg d)
    have hround : round.roundQuotient s n d = (2 * n + d) / (2 * d) := by
      cases s <;> rfl
    rw [hround]
    exact roundsTo_half hquotient hhalf hhalf' s

private theorem roundQuotient_mul (h : o.rounding? = some f) (s : Bool) (k : Nat) (hd : 0 < d) :
    o.roundQuotient s (k * d) d = k := by
  have hdown : k * d / d = k := Nat.mul_div_cancel k hd
  have hup : (k * d + (d - 1)) / d = k := by
    rw [Nat.mul_comm, Nat.mul_add_div hd, Nat.div_eq_of_lt (by omega), Nat.add_zero]
  have hhalf : (2 * (k * d) + d) / (2 * d) = k := by
    rw [show 2 * (k * d) = 2 * d * k by ring, Nat.mul_add_div (by omega),
      Nat.div_eq_of_lt (by omega), Nat.add_zero]
  obtain ⟨rfl, -⟩ | ⟨rfl, -⟩ | ⟨rfl, -⟩ := rounding?_cases h <;> cases s <;>
    simp only [roundQuotient, hdown, hup, hhalf]

/-- Rounding does not go beyond an integer above. -/
theorem roundQuotient_le (h : o.rounding? = some f) (s : Bool) (hd : 0 < d) (hn : n ≤ k * d) :
    o.roundQuotient s n d ≤ k := by
  have hdown : n / d ≤ k := Nat.div_le_of_le_mul (by rwa [Nat.mul_comm])
  have hup : (n + (d - 1)) / d ≤ k := (div_add_pred_le_iff hd).mpr hn
  have hhalf : (2 * n + d) / (2 * d) ≤ k := by
    have hdouble : (k + 1) * (2 * d) = 2 * (k * d) + 2 * d := by ring
    exact Nat.lt_add_one_iff.mp ((Nat.div_lt_iff_lt_mul (by omega)).mpr (by omega))
  obtain ⟨rfl, -⟩ | ⟨rfl, -⟩ | ⟨rfl, -⟩ := rounding?_cases h <;> cases s <;>
    simp only [roundQuotient, hdown, hup, hhalf]

/-! ### Laws of rounding -/

/-- Where two numbers in order are rounded to integers out of order, both are halves; but the one
that is rounded up is positive and the one that is rounded down negative. -/
theorem roundsTo_round_mono (hi : round.RoundsTo p i) (hj : round.RoundsTo q j) (hpq : p ≤ q) :
    (i : ℚ) < j + 1 := by
  obtain ⟨hi, hitie⟩ := hi
  obtain ⟨hj, hjtie⟩ := hj
  obtain ⟨hi₁, hi₂⟩ := abs_le.mp hi
  obtain ⟨hj₁, hj₂⟩ := abs_le.mp hj
  by_contra hle
  have hp : p = i - 1 / 2 := by linarith
  have hq : q = j + 1 / 2 := by linarith
  have hlt : |p| < |(i : ℚ)| := hitie (by rw [hp]; norm_num)
  have hlt' : |q| < |(j : ℚ)| := hjtie (by rw [hq]; norm_num)
  have hipos : 0 < i := by
    by_contra hneg
    have hi0 : (i : ℚ) ≤ 0 := by exact_mod_cast not_lt.mp hneg
    rw [hp, abs_of_neg (by linarith), abs_of_nonpos hi0] at hlt
    linarith
  have hjneg : j < 0 := by
    by_contra hpos
    have hj0 : (0 : ℚ) ≤ j := by exact_mod_cast not_lt.mp hpos
    rw [hq, abs_of_pos (by linarith), abs_of_nonneg hj0] at hlt'
    linarith
  have hnext : i = j + 1 := by
    have hcast : (i : ℚ) = j + 1 := by linarith
    exact_mod_cast hcast
  omega

/-- **Rounding keeps the order.** -/
theorem RoundsTo.mono (hi : o.RoundsTo p i) (hj : o.RoundsTo q j) (hpq : p ≤ q) : i ≤ j := by
  have hlt : (i : ℚ) < j + 1 := by
    cases o with
    | floor => linarith [hi.1, hj.2]
    | ceiling => linarith [hi.1, hj.2]
    | round => exact roundsTo_round_mono hi hj hpq
    | _ => exact hi.elim
  exact Int.lt_add_one_iff.mp (by exact_mod_cast hlt)

/-- An integer is its own rounding. -/
theorem roundsTo_intCast (h : o.rounding? = some f) (i : ℤ) : o.RoundsTo (i : ℚ) i := by
  obtain ⟨rfl, -⟩ | ⟨rfl, -⟩ | ⟨rfl, -⟩ := rounding?_cases h
  · exact ⟨le_rfl, lt_add_one _⟩
  · exact ⟨sub_one_lt _, le_rfl⟩
  · rw [RoundsTo, sub_self, abs_zero]
    norm_num

/-! ### Rounding floating-point numbers -/

variable {x y : Binary64}

/-- A finite number is rounded to an integer as a rational number. It is left as it is if it is
integral, and otherwise the integer is small. -/
theorem exists_roundsTo (h : o.rounding? = some f) (hx : x.value? = some q) :
    ∃ i : ℤ, o.RoundsTo q i ∧ (f x).value? = some (i : ℚ) ∧ (f x = x ∨ i.natAbs ≤ 2 ^ 52) := by
  obtain ⟨s, m, rfl, rfl⟩ := Binary64.exists_of_value? hx
  have hrounds := roundsTo_roundQuotient h s m.units Binary64.unitsPerOne_pos
  refine ⟨_, hrounds, ?_⟩
  rw [rounding_finite h]
  obtain ⟨k, hk⟩ | hlt := m.dvd_or_lt
  · rw [Nat.mul_comm] at hk
    have hsame : Binary64.ofNat s k = .finite s m := by
      rw [Binary64.ofNat, ← hk, Binary64.nearest_units]
    rw [hk, roundQuotient_mul h s k Binary64.unitsPerOne_pos, hsame]
    refine ⟨?_, .inl rfl⟩
    rw [← hsame, Binary64.value?_ofNat (hk ▸ m.representable)]
  · have hle := roundQuotient_le h s Binary64.unitsPerOne_pos hlt.le
    refine ⟨Binary64.value?_ofNat ?_ s, .inr (by rwa [Binary64.natAbs_signed])⟩
    exact Binary64.representable_mul_unitsPerOne (hle.trans_lt (by decide))

/-- An integral number is left as it is. -/
theorem rounding_of_value? (h : o.rounding? = some f) (hx : x.value? = some (i : ℚ)) : f x = x := by
  obtain ⟨s, m, rfl, -⟩ := Binary64.exists_of_value? hx
  obtain ⟨hunits, -⟩ := Binary64.units_of_value? hx
  rw [rounding_finite h, hunits, roundQuotient_mul h s _ Binary64.unitsPerOne_pos,
    Binary64.ofNat, ← hunits, Binary64.nearest_units]

/-- What is not finite is left as it is, and it is no integer. -/
theorem rounding_of_value?_eq_none (h : o.rounding? = some f) (hx : x.value? = none) :
    f x = x ∧ x.toInt64? = none := by
  cases x with
  | finite s m => exact absurd hx (Option.some_ne_none _)
  | infinite s | nan =>
    obtain ⟨-, rfl⟩ | ⟨-, rfl⟩ | ⟨-, rfl⟩ := rounding?_cases h <;> exact ⟨rfl, rfl⟩

/-- With one argument a float is rounded and then converted, if it fits. -/
private theorem apply_float (h : o.rounding? = some f) (x : Binary64) :
    o.apply [.float x] = .ok (.integral (f x)) := by
  obtain ⟨rfl, rfl⟩ | ⟨rfl, rfl⟩ | ⟨rfl, rfl⟩ := rounding?_cases h <;> rfl

theorem apply_integer (h : o.rounding? = some f) (n : Int64) :
    o.apply [.integer n] = .ok (.integer n) := by
  obtain ⟨rfl, -⟩ | ⟨rfl, -⟩ | ⟨rfl, -⟩ := rounding?_cases h <;> rfl

/-! ### Results of rounding -/

/-- The result for an integral number is the integer, if it has at most sixty-four bits. -/
theorem integral_of_fits (hx : x.value? = some (i : ℚ)) (hi : Integer.Fits i) :
    ∃ n : Int64, Value.integral x = .integer n ∧ n.toInt = i := by
  obtain ⟨n, hn, hvalue⟩ := Integer.exists_ofInt?_of_fits hi
  refine ⟨n, ?_, hvalue⟩
  rw [Value.integral, Binary64.toInt64?_of_value? hx, hn]

/-- An integral number that does not fit is left as it is. -/
private theorem integral_of_not_fits (hx : x.value? = some (i : ℚ)) (hi : ¬Integer.Fits i) :
    Value.integral x = .float x := by
  rw [Value.integral, Binary64.toInt64?_of_value? hx, Integer.ofInt?_eq_none_iff.mpr hi]

/-- Converting does not change the value. -/
private theorem value?_toFloat_integral (hx : x.value? = some (i : ℚ)) :
    (Value.integral x).toFloat.value? = some (i : ℚ) := by
  by_cases hi : Integer.Fits i
  · obtain ⟨n, hn, rfl⟩ := integral_of_fits hx hi
    rw [hn, Value.toFloat, Binary64.value?_ofInt64 hx]
  · rwa [integral_of_not_fits hx hi, Value.toFloat]

/-- A floating-point number is compared with any value as a floating-point number. -/
theorem compare?_float_left (x : Binary64) (v : Value) :
    (Value.float x).compare? v = x.compare? v.toFloat := by
  cases v <;> rfl

private theorem compare?_float_right (v : Value) (x : Binary64) :
    v.compare? (.float x) = v.toFloat.compare? x := by
  cases v <;> rfl

/-- Results are compared as the integers that they are worth, whether or not these have at most
sixty-four bits. -/
theorem compare?_integral (hx : x.value? = some (i : ℚ)) (hy : y.value? = some (j : ℚ)) :
    (Value.integral x).compare? (.integral y) = some (compare i j) := by
  have hfloat :=
    Binary64.compare?_of_integral (value?_toFloat_integral hx) (value?_toFloat_integral hy)
  -- an integer that meets a number beyond sixty-four bits is widened to its own value
  by_cases hi : Integer.Fits i
  · by_cases hj : Integer.Fits j
    · obtain ⟨m, hm, rfl⟩ := integral_of_fits hx hi
      obtain ⟨n, hn, rfl⟩ := integral_of_fits hy hj
      rw [hm, hn]
      rfl
    · rw [integral_of_not_fits hy hj] at hfloat ⊢
      rw [compare?_float_right, ← hfloat]
      rfl
  · rw [integral_of_not_fits hx hi] at hfloat ⊢
    rw [compare?_float_left, ← hfloat]
    rfl

/-- Nothing is below the least of all numbers. -/
theorem compare?_minusInfinite_ne_lt (v : Value) :
    v.compare? (.float (.infinite true)) ≠ some .lt := by
  rw [compare?_float_right]
  cases v.toFloat with
  | finite s m => exact nofun
  | infinite s => cases s <;> decide
  | nan => exact nofun

/-- The greatest of all numbers is below nothing. -/
theorem compare?_plusInfinite_ne_lt (v : Value) :
    (Value.float (.infinite false)).compare? v ≠ some .lt := by
  rw [compare?_float_left]
  cases v.toFloat with
  | finite s m => exact nofun
  | infinite s => cases s <;> decide
  | nan => exact nofun

/-- **Results keep the order of the numbers**, be they integers or floating-point numbers. -/
theorem compare?_rounding_ne_lt (h : o.rounding? = some f) (hxy : x.atMost y = true) :
    (Value.integral (f y)).compare? (.integral (f x)) ≠ some .lt := by
  have hinfinite : ∀ s, Value.integral (f (.infinite s)) = .float (.infinite s) := by
    intro s
    have hnone : (Binary64.infinite s).value? = none := rfl
    rw [(rounding_of_value?_eq_none h hnone).1]
    rfl
  obtain rfl | rfl | ⟨p, q, hx, hy, hle⟩ := Binary64.atMost_cases hxy
  · rw [hinfinite]
    exact compare?_minusInfinite_ne_lt _
  · rw [hinfinite]
    exact compare?_plusInfinite_ne_lt _
  · obtain ⟨i, hi, hx, -⟩ := exists_roundsTo h hx
    obtain ⟨j, hj, hy, -⟩ := exists_roundsTo h hy
    rw [compare?_integral hy hx, Ne, Option.some_inj, compare_lt_iff_lt, not_lt]
    exact hi.mono hj hle

/-- A number in the range of the integers of sixty-four bits has its rounding there. -/
theorem exists_integral_eq (h : o.rounding? = some f) (hx : x.value? = some q)
    (hlower : -2 ^ 63 ≤ q) (hupper : q < 2 ^ 63) :
    ∃ n : Int64, Value.integral (f x) = .integer n ∧ o.RoundsTo q n.toInt := by
  obtain ⟨i, hi, hvalue, hsame⟩ := exists_roundsTo h hx
  have hfits : Integer.Fits i := by
    obtain hsame | hsmall := hsame
    · -- an integral number is in the range because it is its own rounding
      rw [hsame, hx] at hvalue
      obtain rfl := Option.some.inj hvalue
      exact ⟨by exact_mod_cast hlower, by exact_mod_cast hupper⟩
    · exact Integer.fits_of_natAbs_lt (hsmall.trans_lt (by decide))
  obtain ⟨n, hn, rfl⟩ := integral_of_fits hvalue hfits
  exact ⟨n, hn, hi⟩

/-- Any other number is its own result. -/
theorem integral_eq_float (h : o.rounding? = some f)
    (hx : ∀ q, x.value? = some q → q < -2 ^ 63 ∨ 2 ^ 63 ≤ q) :
    Value.integral (f x) = .float x := by
  cases hq : x.value? with
  | none =>
    obtain ⟨hsame, hnone⟩ := rounding_of_value?_eq_none h hq
    rw [hsame, Value.integral, hnone]
  | some q =>
    obtain ⟨i, hi, hvalue, hsame | hsmall⟩ := exists_roundsTo h hq
    · rw [hsame, hq] at hvalue
      obtain rfl := Option.some.inj hvalue
      have hnot : ¬Integer.Fits i := by
        rintro ⟨hlower, hupper⟩
        obtain hlt | hle := hx i hq
        · exact absurd (show i < -2 ^ 63 by exact_mod_cast hlt) (not_lt.mpr hlower)
        · exact absurd (show 2 ^ 63 ≤ i by exact_mod_cast hle) (not_le.mpr hupper)
      rw [hsame, integral_of_not_fits hq hnot]
    · -- a small integer is the rounding of a small number
      exfalso
      obtain hlt | hle := hx q hq
      · have hmono := hi.mono (roundsTo_intCast h (-2 ^ 63)) (by push_cast; exact hlt.le)
        omega
      · have hmono := (roundsTo_intCast h (2 ^ 63)).mono hi (by push_cast; exact hle)
        omega

/-- The result of rounding is its own rounding. -/
theorem apply_apply (h : o.rounding? = some f) {v w : Value} (hv : o.apply [v] = .ok w) :
    o.apply [w] = .ok w := by
  cases v with
  | integer n =>
    rw [apply_integer h] at hv
    obtain rfl := Except.ok.inj hv
    exact apply_integer h n
  | float x =>
    rw [apply_float h] at hv
    obtain rfl := Except.ok.inj hv
    cases hx : x.value? with
    | none =>
      obtain ⟨hsame, hnone⟩ := rounding_of_value?_eq_none h hx
      have hresult : Value.integral x = .float x := by rw [Value.integral, hnone]
      rw [hsame, hresult, apply_float h, hsame, hresult]
    | some q =>
      obtain ⟨i, -, hvalue, -⟩ := exists_roundsTo h hx
      by_cases hi : Integer.Fits i
      · obtain ⟨n, hn, -⟩ := integral_of_fits hvalue hi
        rw [hn, apply_integer h]
      · rw [integral_of_not_fits hvalue hi, apply_float h, rounding_of_value? h hvalue,
          integral_of_not_fits hvalue hi]
  | boolean b =>
    obtain ⟨rfl, -⟩ | ⟨rfl, -⟩ | ⟨rfl, -⟩ := rounding?_cases h <;> cases hv

/-- What holds of rounding with one argument. -/
structure RoundsNumbers (o : Operation) : Prop where
  /-- In the range of the integers of sixty-four bits a number is rounded to one of them. -/
  integer : ∀ (x : Binary64) q, x.value? = some q → -2 ^ 63 ≤ q → q < 2 ^ 63 →
    ∃ n : Int64, o.apply [.float x] = .ok (.integer n) ∧ o.RoundsTo q n.toInt
  /-- Any other floating-point number, finite or not, is left as it is. -/
  float : ∀ x : Binary64, (∀ q, x.value? = some q → q < -2 ^ 63 ∨ 2 ^ 63 ≤ q) →
    o.apply [.float x] = .ok (.float x)
  /-- So are integers. -/
  unchanged : ∀ n : Int64, o.apply [.integer n] = .ok (.integer n)
  idempotent : ∀ v w, o.apply [v] = .ok w → o.apply [w] = .ok w
  monotone : ∀ x y : Binary64, x.atMost y = true → ∃ v w,
    o.apply [.float x] = .ok v ∧ o.apply [.float y] = .ok w ∧ w.compare? v ≠ some .lt

/-- Each of the three roundings keeps all the laws of rounding. -/
private theorem roundsNumbers_of_rounding? (h : o.rounding? = some f) : RoundsNumbers o where
  integer x q hx hlower hupper := by
    obtain ⟨n, hn, hrounds⟩ := exists_integral_eq h hx hlower hupper
    exact ⟨n, by rw [apply_float h, hn], hrounds⟩
  float x hx := by rw [apply_float h, integral_eq_float h hx]
  unchanged := apply_integer h
  idempotent _ _ := apply_apply h
  monotone x y hxy := ⟨_, _, apply_float h x, apply_float h y, compare?_rounding_ne_lt h hxy⟩

/-- **Rounding to integers.** -/
theorem apply_roundings : RoundsNumbers .floor ∧ RoundsNumbers .ceiling ∧ RoundsNumbers .round :=
  ⟨roundsNumbers_of_rounding? rfl, roundsNumbers_of_rounding? rfl, roundsNumbers_of_rounding? rfl⟩

/-- One half below zero. -/
example :
    floor.apply [.float (.nearest true unitsPerOne 2)] = .ok (.integer (-1)) ∧
      ceiling.apply [.float (.nearest true unitsPerOne 2)] = .ok (.integer 0) ∧
      round.apply [.float (.nearest true unitsPerOne 2)] = .ok (.integer (-1)) := by
  decide +kernel

end Operation

end Formula
