import Formula.Proofs.Binary64.Sign
import Formula.Proofs.Binary64.Widening
import Formula.Proofs.Operation.Power

/-!
# Signs of powers with integer exponents

A negative number raised to an integer is negative if the exponent is odd, and positive if it is
even. The exact power of an integer keeps to this. A floating-point power is computed from the
widened exponent, which is even from `2 ^ 53` on (`Binary64.isOddInteger_ofInt64_iff`), so that
its sign follows the parity of the exponent below that bound, and is positive from there on:
`Power.power_followsParity` is about every way to the power of a negative number.
-/

namespace Formula

/-- The value is a number, and it has the given sign. -/
inductive Value.HasSign (negative : Bool) : Value → Prop
  | integer {n : Int64} (h : decide (n.toInt < 0) = negative) : HasSign negative (.integer n)
  | float {x : Binary64} (h : x.HasSign negative) : HasSign negative (.float x)

private theorem Value.hasSign_float_iff {negative : Bool} {x : Binary64} :
    (float x).HasSign negative ↔ x.HasSign negative := by
  refine ⟨fun h => ?_, .float⟩
  cases h with
  | float hx => exact hx

namespace Power

variable {base exponent : Int64} {x : Binary64}

/-- A power of a negative integer is negative exactly if the exponent is odd. -/
private theorem pow_lt_zero_iff {b : Int} (hb : b < 0) {k : Nat} : b ^ k < 0 ↔ Odd k := by
  refine ⟨fun hneg => ?_, fun hodd => hodd.pow_neg hb⟩
  by_contra hodd
  exact absurd ((Nat.not_odd_iff_even.mp hodd).pow_nonneg b) (not_le.mpr hneg)

/-- An exact power of a negative integer is negative if the exponent is odd. -/
theorem integerPower?_lt_zero_iff (hbase : base.toInt < 0) (hexponent : 0 ≤ exponent.toInt)
    {n : Int64} (h : integerPower? base exponent = some n) : n.toInt < 0 ↔ Odd exponent.toInt := by
  rw [integerPower?_eq hexponent (.inl (Integer.ne_zero_of_toInt_neg hbase))] at h
  obtain ⟨k, hk⟩ := Int.eq_ofNat_of_zero_le hexponent
  rw [Integer.toInt_of_ofInt? h, pow_lt_zero_iff hbase, hk, Int.toNat_natCast, Int.odd_coe_nat]

/-- The value is a number, and it is negative exactly if the exponent is odd and, for a
floating-point number, below `2 ^ 53` in size. -/
def FollowsParity (exponent : Int64) (v : Value) : Prop :=
  ∃ negative, v.HasSign negative ∧
    (negative = true ↔
      Odd exponent.toInt ∧ (v.isFloat = true → exponent.toInt.natAbs < 2 ^ 53))

/-- A floating-point power of a negative number is negative if the exponent is odd when it is
widened. -/
theorem followsParity_pow (hx : x.HasSign true) (exponent : Int64) :
    FollowsParity exponent (.float (x.pow (.ofInt64 exponent))) := by
  have hpow := Binary64.hasSign_pow hx.ne_nan (Binary64.isInteger_ofInt64 exponent)
  rw [hx.isNegative_eq, Bool.true_and] at hpow
  refine ⟨_, .float hpow, (Binary64.isOddInteger_ofInt64_iff exponent).trans ?_⟩
  exact and_congr_right fun _ => ⟨fun hsmall _ => hsmall, fun hsmall => hsmall rfl⟩

/-- **The sign of a power with an integer exponent.** A power of a negative number with an integer
exponent has the sign that the parity of the exponent gives it, unless it is a non-positive power
of zero. -/
theorem power_followsParity {base : Value} (hbase : base.HasSign true) (exponent : Int64) :
    (base = .float (.zero true) ∧ exponent.toInt ≤ 0 ∧
      power [base, .integer exponent] = .error (.domain "pow" .powerOfZero)) ∨
    ∃ v, power [base, .integer exponent] = .ok v ∧ FollowsParity exponent v := by
  cases hbase with
  | @integer n h =>
    right
    have hneg : n.toInt < 0 := of_decide_eq_true h
    have hwidened : (Binary64.ofInt64 n).HasSign true := h ▸ Binary64.hasSign_ofInt64 n
    have hpower : power [.integer n, .integer exponent] = ofIntegers n exponent := rfl
    rw [ofIntegers, if_neg fun hzero => Integer.ne_zero_of_toInt_neg hneg hzero.1] at hpower
    obtain hexponent | hexponent := Int.lt_or_le exponent.toInt 0
    · rw [if_pos hexponent] at hpower
      exact ⟨_, hpower, followsParity_pow hwidened exponent⟩
    -- the exact power if it has at most sixty-four bits, and else a floating-point number
    · rw [if_neg (not_lt.mpr hexponent)] at hpower
      cases hfound : integerPower? n exponent with
      | some m =>
        rw [hfound] at hpower
        refine ⟨_, hpower, _, .integer rfl, ?_⟩
        rw [decide_eq_true_iff, integerPower?_lt_zero_iff hneg hexponent hfound]
        exact (and_iff_left fun hkind => absurd hkind Bool.false_ne_true).symm
      | none =>
        rw [hfound] at hpower
        exact ⟨_, hpower, followsParity_pow hwidened exponent⟩
  | @float x h =>
    by_cases hzero : x.isZero = true ∧ exponent.toInt ≤ 0
    · left
      exact ⟨congrArg Value.float (h.eq_zero hzero.1), hzero.2, if_pos hzero⟩
    · right
      exact ⟨_, if_neg hzero, followsParity_pow h exponent⟩

/-- The greatest exponent below `2 ^ 53` is odd, and the power is negative though it is far too
large for an integer. -/
theorem power_minus_three_negative :
    (Value.integer (-3)).HasSign true ∧
      ∃ v, power [.integer (-3), .integer 9007199254740991] = .ok v ∧ v.HasSign true := by
  have hbase : (Value.integer (-3)).HasSign true := .integer (by decide)
  refine ⟨hbase, ?_⟩
  obtain ⟨hzero, -⟩ | ⟨v, hv, negative, hsign, hparity⟩ :=
    power_followsParity hbase 9007199254740991
  · exact absurd hzero (by simp)
  · have hnegative : negative = true :=
      hparity.mpr ⟨by decide, fun _ => by decide⟩
    exact ⟨v, hv, hnegative ▸ hsign⟩

/-- Beyond `2 ^ 53` an odd exponent is even when it is widened. Minus one keeps its sign as an
integer and loses it with the reciprocal exponent, as a larger base does whose power has more than
sixty-four bits, and as a floating-point base does. -/
theorem power_minus_one_positive :
    (Value.integer (-1)).HasSign true ∧ Odd (-9007199254740993 : Int64).toInt ∧
      power [.integer (-1), .integer 9007199254740993] = .ok (.integer (-1)) ∧
      (power [.integer (-1), .integer (-9007199254740993)] = .ok (.float .one) ∧
        ¬(Value.float .one).HasSign true) ∧
      power [.integer (-3), .integer 9007199254740993] = .ok (.float (.infinite false)) ∧
      power [.float (.ofNat true 1), .integer 9007199254740993] = .ok (.float .one) := by
  have hpositive : ¬(Value.float .one).HasSign true := fun h =>
    absurd (Value.hasSign_float_iff.mp h).isNegative_eq (by decide +kernel)
  exact ⟨.integer (by decide), by decide, by decide +kernel, ⟨by decide +kernel, hpositive⟩,
    by decide +kernel, by decide +kernel⟩

end Power

end Formula
