import Formula.Binary64.Remainder
import Formula.Proofs.Binary64.Near
import Mathlib.Data.Rat.Defs
import Mathlib.Tactic.Linarith
import Mathlib.Tactic.Ring

/-!
# Results that are not rounded

An operation rounds its exact result, and rounding changes nothing where the result is itself a
number of the format: a whole number of units with at most 53 bits in front of a power of two, and
not too large (`Binary64.representable_of_dvd`).

What the operations do to exact values is said with the integral numbers of units
(`Binary64.scaled?`): the remainder of the truncated division is always exact
(`Binary64.scaled?_modulo`), a difference is where it can be represented (`Binary64.scaled?_sub`),
and so is a quotient that is an integer (`Binary64.scaled?_div`). A number that is doubled becomes
infinite only if twice the number is beyond every number, so that comparing it is right even then
(`Binary64.greater_two_mul_iff`, `Binary64.equal_two_mul_iff`).
-/

namespace Formula

namespace Binary64

variable {x y : Binary64} {X Y z : Int} {n d e : Nat}

/-! ### Signs -/

theorem natAbs_signed (negative : Bool) (k : Nat) : (signed negative k).natAbs = k := by
  obtain _ | _ := negative
  · rfl
  · exact Int.natAbs_neg k

theorem signed_natAbs (z : Int) : signed (decide (z < 0)) z.natAbs = z := by
  rw [signed]
  split
  · next h =>
    have hz := of_decide_eq_true h
    omega
  · next h =>
    have hz := of_decide_eq_false (Bool.eq_false_iff.mpr h)
    omega

/-- A number that is not zero has the sign that it was given. -/
theorem decide_signed_lt_zero {k : Nat} (negative : Bool) (hk : k ≠ 0) :
    decide (signed negative k < 0) = negative := by
  obtain _ | _ := negative
  · exact decide_eq_false (by rw [signed, if_neg (by decide)]; omega)
  · exact decide_eq_true (by rw [signed, if_pos rfl]; omega)

theorem signed_false (k : Nat) : signed false k = k := rfl

theorem signed_true (k : Nat) : signed true k = -k := rfl

theorem signed_zero (negative : Bool) : signed negative 0 = 0 := by
  cases negative <;> rfl

private theorem ne_zero_of_signed {negative : Bool} {k : Nat} (h : signed negative k ≠ 0) :
    k ≠ 0 := by
  rintro rfl
  exact h (signed_zero negative)

theorem signed_mul (negative : Bool) (k n : Nat) :
    signed negative (k * n) = signed negative k * n := by
  obtain _ | _ := negative
  · exact Int.natCast_mul k n
  · exact (congrArg Neg.neg (Int.natCast_mul k n)).trans (Int.neg_mul _ _).symm

private theorem signed_not (negative : Bool) (k : Nat) :
    signed (!negative) k = -signed negative k := by
  obtain _ | _ := negative
  · rfl
  · exact (Int.neg_neg _).symm

/-- The value is a number, finite or infinite, and it has the given sign. -/
inductive HasSign (negative : Bool) : Binary64 → Prop
  | finite (m : Magnitude) : HasSign negative (.finite negative m)
  | infinite : HasSign negative (.infinite negative)

theorem HasSign.isNegative_eq {negative : Bool} (h : HasSign negative x) :
    x.isNegative = negative := by
  cases h <;> rfl

/-! ### Exact values -/

/-- The exact value of a finite number. -/
def value? (x : Binary64) : Option ℚ := x.scaled?.map fun (z : Int) => (z : ℚ) / unitsPerOne

/-- Only finite numbers have an exact value. -/
theorem exists_of_scaled? (h : x.scaled? = some X) :
    ∃ s m, x = finite s m ∧ signed s m.units = X := by
  cases x with
  | finite s m => exact ⟨s, m, rfl, Option.some.inj h⟩
  | infinite s => exact absurd h (Option.some_ne_none X).symm
  | nan => exact absurd h (Option.some_ne_none X).symm

/-- The value of a number is the integral number of its units, in units. -/
theorem value?_eq_some_iff {p : ℚ} :
    x.value? = some p ↔ ∃ X, x.scaled? = some X ∧ (X : ℚ) / unitsPerOne = p := by
  rw [value?, Option.map_eq_some_iff]

theorem isZero_eq_false (hy : y.scaled? = some Y) (hY : Y ≠ 0) : y.isZero = false := by
  obtain ⟨t, b, rfl, rfl⟩ := exists_of_scaled? hy
  exact beq_eq_false_iff_ne.mpr (mt b.units_eq_zero_iff.mpr (ne_zero_of_signed hY))

/-! ### Numbers of units that can be represented -/

/-- A finite magnitude has the number of units. -/
def Representable (n : Nat) : Prop := ∃ m : Magnitude, m.units = n

/-- A multiple of a power of two can be represented if at most 53 bits stand in front of the power,
and if the power is not too large. -/
theorem representable_of_dvd (he : e ≤ 2045) (hdvd : 2 ^ e ∣ n) (hlt : n < 2 ^ 53 * 2 ^ e) :
    Representable n := by
  obtain ⟨hsignificand, hnormal⟩ := significand_bounds n
  have hle : exponentFor n ≤ e := by
    obtain hzero | hfull := hnormal
    · omega
    · have hunits : 2 ^ 52 * 2 ^ exponentFor n ≤ n :=
        (Nat.mul_le_mul_right _ hfull).trans (Nat.div_mul_le_self n _)
      have hpow : 2 ^ exponentFor n < 2 ^ (e + 1) := by
        rw [Nat.pow_succ]
        omega
      have hlog := (Nat.pow_lt_pow_iff_right (by decide)).mp hpow
      omega
  refine ⟨⟨n / 2 ^ exponentFor n, exponentFor n, hsignificand, hnormal, by omega⟩, ?_⟩
  exact Nat.div_mul_cancel ((Nat.pow_dvd_pow 2 hle).trans hdvd)

theorem Magnitude.representable (m : Magnitude) : Representable m.units := ⟨m, rfl⟩

/-- The units of a magnitude are a multiple of its spacing. -/
theorem Magnitude.two_pow_dvd (m : Magnitude) : 2 ^ m.exponent ∣ m.units :=
  Nat.dvd_mul_left _ _

/-- The units of a magnitude are fewer than `2 ^ 53` spacings. -/
theorem Magnitude.units_lt_two_pow_mul (m : Magnitude) : m.units < 2 ^ 53 * 2 ^ m.exponent :=
  (Nat.mul_lt_mul_right (Nat.two_pow_pos _)).mpr m.significand_lt

/-- A magnitude with a lesser exponent is smaller. -/
theorem Magnitude.units_lt_of_exponent_lt {a b : Magnitude} (h : a.exponent < b.exponent) :
    a.units < b.units := by
  have hfull : 2 ^ 52 ≤ b.significand := b.normal.resolve_left (by omega)
  calc a.units < 2 ^ 53 * 2 ^ a.exponent := a.units_lt_two_pow_mul
    _ = 2 ^ 52 * 2 ^ (a.exponent + 1) := by rw [Nat.pow_succ]; omega
    _ ≤ b.units := Nat.mul_le_mul hfull (Nat.pow_le_pow_right (by decide) h)

/-- A number up to a magnitude can be represented if it is a multiple of the same power of two. -/
theorem Magnitude.representable_of_le (m : Magnitude) (hdvd : 2 ^ m.exponent ∣ n)
    (hle : n ≤ m.units) : Representable n :=
  representable_of_dvd m.exponent_le hdvd (hle.trans_lt m.units_lt_two_pow_mul)

/-- What is left when one magnitude is taken out of another as often as possible can be
represented. -/
theorem representable_mod (a b : Magnitude) (hb : b.units ≠ 0) :
    Representable (a.units % b.units) := by
  obtain hlt | hle := Nat.lt_or_ge a.exponent b.exponent
  · rw [Nat.mod_eq_of_lt (Magnitude.units_lt_of_exponent_lt hlt)]
    exact a.representable
  · have hdvd : 2 ^ b.exponent ∣ a.units := (Nat.pow_dvd_pow 2 hle).trans a.two_pow_dvd
    exact b.representable_of_le ((Nat.dvd_mod_iff b.two_pow_dvd).mpr hdvd)
      (Nat.mod_lt _ (Nat.pos_of_ne_zero hb)).le

/-- The difference of two magnitudes of which one is at most twice the other can be represented. -/
theorem representable_sub {a b : Magnitude} (hle : a.units ≤ b.units)
    (htwice : b.units ≤ 2 * a.units) : Representable (b.units - a.units) := by
  obtain h | h := Nat.le_total a.exponent b.exponent
  · have hdvd : 2 ^ a.exponent ∣ b.units := (Nat.pow_dvd_pow 2 h).trans b.two_pow_dvd
    exact a.representable_of_le (Nat.dvd_sub hdvd a.two_pow_dvd) (by omega)
  · have hdvd : 2 ^ b.exponent ∣ a.units := (Nat.pow_dvd_pow 2 h).trans a.two_pow_dvd
    exact b.representable_of_le (Nat.dvd_sub b.two_pow_dvd hdvd) (by omega)

/-! ### Rounding a number that can be represented -/

/-- A rounded result has the sign that it is rounded with. -/
theorem hasSign_nearest (negative : Bool) (n d : Nat) :
    HasSign negative (nearest negative n d) := by
  unfold nearest
  split
  · exact .finite _
  · exact .infinite

/-- Rounding leaves a representable number of units as it is. -/
theorem scaled?_nearest (h : Representable n) (negative : Bool) :
    (nearest negative n 1).scaled? = some (signed negative n) := by
  obtain ⟨m, rfl⟩ := h
  rw [nearest_units]
  rfl

private theorem scaled?_ofScaled (h : Representable z.natAbs) (zeroSign : Bool) :
    (ofScaled zeroSign z).scaled? = some z := by
  rw [ofScaled]
  split
  · next hz =>
    rw [hz, zero, scaled?]
    exact congrArg some (signed_zero zeroSign)
  · rw [scaled?_nearest h, signed_natAbs]

private theorem roundHalfEven_mul_right (n d : Nat) {k : Nat} (hk : 0 < k) :
    roundHalfEven (n * k) (d * k) = roundHalfEven n d := by
  rw [roundHalfEven, roundHalfEven, Nat.mul_mod_mul_right, Nat.mul_div_mul_right n d hk,
    ← Nat.mul_assoc]
  simp only [Nat.mul_lt_mul_right hk]

/-- Rounding sees the value of a quotient alone. -/
theorem Magnitude.nearest?_mul_right (n d : Nat) {k : Nat} (hk : 0 < k) :
    Magnitude.nearest? (n * k) (d * k) = Magnitude.nearest? n d := by
  have hdiv : n * k / (d * k) = n / d := Nat.mul_div_mul_right n d hk
  have hround : roundHalfEven (n * k) (d * k * 2 ^ exponentFor (n / d)) =
      roundHalfEven n (d * 2 ^ exponentFor (n / d)) := by
    rw [Nat.mul_right_comm, roundHalfEven_mul_right _ _ hk]
  unfold nearest?
  simp only [hdiv, hround]

/-- The number nearest to a quotient does not depend on a common factor. -/
theorem nearest_mul_right (negative : Bool) (n d : Nat) {k : Nat} (hk : 0 < k) :
    nearest negative (n * k) (d * k) = nearest negative n d := by
  unfold nearest
  rw [Magnitude.nearest?_mul_right n d hk]

private theorem Magnitude.pack?_eq_none {significand exponent : Nat}
    {normal : exponent = 0 ∨ 2 ^ 52 ≤ significand} (h : 2045 < exponent) :
    pack? significand exponent normal = none := by
  rw [pack?]
  split
  · rw [dif_neg (by omega)]
  · rw [dif_neg (by omega)]

/-- A quotient that needs a larger exponent than there is has no nearest magnitude. -/
theorem Magnitude.nearest?_eq_none (h : 2045 < exponentFor (n / d)) : nearest? n d = none :=
  pack?_eq_none h

/-! ### Operations on exact values -/

/-- The truncated remainder has the sign of the dividend, also if it is zero. -/
theorem isNegative_modulo (hx : x.scaled? = some X) (hy : y.scaled? = some Y) (hY : Y ≠ 0) :
    (x.modulo y).isNegative = x.isNegative := by
  obtain ⟨s, a, rfl, rfl⟩ := exists_of_scaled? hx
  obtain ⟨t, b, rfl, rfl⟩ := exists_of_scaled? hy
  have hb : b.units ≠ 0 := ne_zero_of_signed hY
  rw [modulo, if_neg hb]
  exact (hasSign_nearest s _ _).isNegative_eq

/-- The remainder of magnitudes under the sign of the dividend is the truncated remainder. -/
private theorem signed_mod (s t : Bool) (a b : Nat) :
    signed s (a % b) = (signed s a).tmod (signed t b) := by
  obtain _ | _ := s <;> obtain _ | _ := t <;>
    simp only [signed_false, signed_true, Int.tmod_neg, Int.neg_tmod, Int.ofNat_tmod]

/-- The remainder of the truncated division is not rounded. -/
theorem scaled?_modulo (hx : x.scaled? = some X) (hy : y.scaled? = some Y) (hY : Y ≠ 0) :
    (x.modulo y).scaled? = some (X.tmod Y) := by
  obtain ⟨s, a, rfl, rfl⟩ := exists_of_scaled? hx
  obtain ⟨t, b, rfl, rfl⟩ := exists_of_scaled? hy
  have hb : b.units ≠ 0 := ne_zero_of_signed hY
  rw [modulo, if_neg hb, scaled?_nearest (representable_mod a b hb), signed_mod s t]

theorem scaled?_abs (hx : x.scaled? = some X) : x.abs.scaled? = some (X.natAbs : Int) := by
  obtain ⟨s, a, rfl, rfl⟩ := exists_of_scaled? hx
  rw [natAbs_signed]
  rfl

theorem scaled?_neg (hx : x.scaled? = some X) : x.neg.scaled? = some (-X) := by
  obtain ⟨s, a, rfl, rfl⟩ := exists_of_scaled? hx
  rw [← signed_not]
  rfl

/-- A difference that can be represented is not rounded. -/
theorem scaled?_sub (hx : x.scaled? = some X) (hy : y.scaled? = some Y)
    (h : Representable (X - Y).natAbs) : (x.sub y).scaled? = some (X - Y) := by
  obtain ⟨s, a, rfl, rfl⟩ := exists_of_scaled? hx
  obtain ⟨t, b, rfl, rfl⟩ := exists_of_scaled? hy
  rw [sub, neg, add, signed_not, ← Int.sub_eq_add_neg, scaled?_ofScaled h]

/-- A number keeps its magnitude when it is given the sign of another one. -/
theorem scaled?_withSignOf (hx : x.scaled? = some X) (hy : y.scaled? = some Y) (hY : Y ≠ 0) :
    (x.withSignOf y).scaled? = some (X.natAbs * Y.sign) := by
  obtain ⟨t, b, rfl, rfl⟩ := exists_of_scaled? hy
  have hb : b.units ≠ 0 := ne_zero_of_signed hY
  rw [withSignOf, isNegative]
  obtain _ | _ := t
  · rw [if_neg Bool.false_ne_true, scaled?_abs hx, signed_false,
      Int.sign_eq_one_of_pos (by omega), Int.mul_one]
  · rw [if_pos rfl, scaled?_neg (scaled?_abs hx), signed_true,
      Int.sign_eq_neg_one_of_neg (by omega), Int.mul_neg, Int.mul_one]

/-! ### Comparisons -/

/-- Finite numbers are compared as their units. -/
theorem compare?_of_scaled? (hx : x.scaled? = some X) (hy : y.scaled? = some Y) :
    x.compare? y = some (compare X Y) := by
  obtain ⟨s, a, rfl, rfl⟩ := exists_of_scaled? hx
  obtain ⟨t, b, rfl, rfl⟩ := exists_of_scaled? hy
  rfl

theorem equal_iff (hx : x.scaled? = some X) (hy : y.scaled? = some Y) :
    x.equal y = true ↔ X = Y := by
  rw [equal, compare?_of_scaled? hx hy, beq_iff_eq, Option.some_inj, compare_eq_iff_eq]

private theorem greater_iff (hx : x.scaled? = some X) (hy : y.scaled? = some Y) :
    x.greater y = true ↔ Y < X := by
  rw [greater, compare?_of_scaled? hx hy, beq_iff_eq, Option.some_inj, compare_gt_iff_gt]

/-! ### Doubling -/

/-- A whole number of at most 53 bits is a number of the format. -/
theorem representable_mul_unitsPerOne {k : Nat} (hk : k < 2 ^ 53) :
    Representable (k * unitsPerOne) := by
  obtain ⟨p, hp, hunits⟩ := exists_unitsPerOne_eq
  rw [hunits]
  exact representable_of_dvd (by omega) (Nat.dvd_mul_left _ _)
    ((Nat.mul_lt_mul_right (Nat.two_pow_pos _)).mpr hk)

/-- So is a power of two, if it is not too large. -/
theorem representable_two_pow_mul_unitsPerOne {k : Nat} (hk : k ≤ 971) :
    Representable (2 ^ k * unitsPerOne) := by
  obtain ⟨p, hp, hunits⟩ := exists_unitsPerOne_eq
  rw [hunits, ← Nat.pow_add]
  exact representable_of_dvd (by omega) (Nat.dvd_refl _)
    (lt_mul_of_one_lt_left (Nat.two_pow_pos _) (by decide))

/-- A whole number that can be represented is the value of the number nearest to it. -/
theorem value?_ofNat {k : Nat} (h : Representable (k * unitsPerOne)) (negative : Bool) :
    (ofNat negative k).value? = some (signed negative k : ℚ) := by
  have hpos : (unitsPerOne : ℚ) ≠ 0 := Nat.cast_ne_zero.mpr unitsPerOne_pos.ne'
  refine value?_eq_some_iff.mpr ⟨_, scaled?_nearest h negative, ?_⟩
  rw [signed_mul, Int.cast_mul, Int.cast_natCast, mul_div_cancel_right₀ _ hpos]

private theorem exists_two : ∃ m : Magnitude, m.units = 2 * unitsPerOne ∧ two = finite false m := by
  obtain ⟨m, hm⟩ := representable_mul_unitsPerOne (k := 2) (by decide)
  refine ⟨m, hm, ?_⟩
  rw [two, ofNat, ← hm, nearest_units]

/-- Twice a magnitude can be represented, or it is beyond every magnitude. -/
theorem Magnitude.double_cases (m : Magnitude) : Representable (2 * m.units) ∨
    nearest? (2 * m.units) 1 = none ∧ ∀ b : Magnitude, b.units < 2 * m.units := by
  by_cases he : m.exponent + 1 ≤ 2045
  · left
    have hdouble : 2 * m.units = m.significand * 2 ^ (m.exponent + 1) := by
      rw [units, Nat.pow_succ]
      ring
    rw [hdouble]
    exact representable_of_dvd he (Nat.dvd_mul_left _ _)
      ((Nat.mul_lt_mul_right (Nat.two_pow_pos _)).mpr m.significand_lt)
  · -- a magnitude with the largest exponent has all 53 bits, so that twice it has one too many
    right
    have hexponent : m.exponent = 2045 := le_antisymm m.exponent_le (by omega)
    have hfull : 2 ^ 52 ≤ m.significand := m.normal.resolve_left (by omega)
    have hunits : 2 ^ 53 * 2 ^ m.exponent ≤ 2 * m.units := by
      have hmul := Nat.mul_le_mul_right (2 ^ m.exponent) hfull
      rw [units]
      omega
    refine ⟨nearest?_eq_none ?_, fun b => ?_⟩
    · rw [Nat.div_one, exponentFor_eq (e := m.exponent + 1)]
      · omega
      · have hlt := m.units_lt_two_pow_mul
        rw [Nat.pow_succ]
        omega
      · right
        rw [Nat.pow_succ]
        omega
    · have hpow : 2 ^ b.exponent ≤ 2 ^ m.exponent :=
        Nat.pow_le_pow_right (by decide) (hexponent ▸ b.exponent_le)
      exact (b.units_lt_two_pow_mul.trans_le (Nat.mul_le_mul_left _ hpow)).trans_le hunits

/-- The double of a number is infinite only if it is beyond every finite number. -/
theorem two_mul_abs (hx : x.scaled? = some X) :
    (two.mul x.abs).scaled? = some (2 * X.natAbs : Int) ∨
      two.mul x.abs = infinite false ∧ ∀ b : Magnitude, b.units < 2 * X.natAbs := by
  obtain ⟨s, a, rfl, rfl⟩ := exists_of_scaled? hx
  obtain ⟨m, hm, htwo⟩ := exists_two
  have hproduct : two.mul (finite s a).abs = nearest false (2 * a.units) 1 := by
    calc two.mul (finite s a).abs
        = nearest false (2 * a.units * unitsPerOne) (1 * unitsPerOne) := by
          rw [htwo, abs, mul, hm, Nat.mul_right_comm, Nat.one_mul]
          rfl
      _ = nearest false (2 * a.units) 1 := nearest_mul_right _ _ _ unitsPerOne_pos
  rw [natAbs_signed, hproduct]
  obtain hrep | ⟨hnone, hbeyond⟩ := a.double_cases
  · left
    rw [scaled?_nearest hrep, signed_false]
    rfl
  · right
    refine ⟨?_, hbeyond⟩
    unfold nearest
    rw [hnone]

/-- Comparing twice a number is right even where doubling it gives infinity. -/
theorem greater_two_mul_iff (hx : x.scaled? = some X) (hy : y.scaled? = some Y) :
    (two.mul x.abs).greater y.abs = true ↔ Y.natAbs < 2 * X.natAbs := by
  obtain hdouble | ⟨hdouble, hbeyond⟩ := two_mul_abs hx
  · rw [greater_iff hdouble (scaled?_abs hy)]
    omega
  · obtain ⟨t, b, rfl, rfl⟩ := exists_of_scaled? hy
    rw [hdouble, natAbs_signed]
    exact iff_of_true rfl (hbeyond b)

/-- Doubling a magnitude for the test of a tie is exact: it finds half of the other one and nothing
else. -/
theorem equal_two_mul_iff (hx : x.scaled? = some X) (hy : y.scaled? = some Y) :
    (two.mul x.abs).equal y.abs = true ↔ 2 * X.natAbs = Y.natAbs := by
  obtain hdouble | ⟨hdouble, hbeyond⟩ := two_mul_abs hx
  · rw [equal_iff hdouble (scaled?_abs hy)]
    omega
  · obtain ⟨t, b, rfl, rfl⟩ := exists_of_scaled? hy
    rw [hdouble, natAbs_signed]
    exact iff_of_false Bool.false_ne_true (hbeyond b).ne'

/-! ### Quotients that are integers -/

/-- The quotient of a multiple of a number by the number is not rounded. -/
theorem scaled?_div {q : Int} (hx : x.scaled? = some (q * Y)) (hy : y.scaled? = some Y)
    (hY : Y ≠ 0) (hq : q.natAbs < 2 ^ 53) : (x.div y).scaled? = some (q * unitsPerOne) := by
  obtain ⟨s, a, rfl, ha⟩ := exists_of_scaled? hx
  obtain ⟨t, b, rfl, rfl⟩ := exists_of_scaled? hy
  have hb : b.units ≠ 0 := ne_zero_of_signed hY
  have hunits : a.units = q.natAbs * b.units := by
    rw [← natAbs_signed s a.units, ha, Int.natAbs_mul, natAbs_signed]
  have hquotient : (finite s a).div (finite t b) = nearest (s ^^ t) (q.natAbs * unitsPerOne) 1 := by
    calc (finite s a).div (finite t b)
        = nearest (s ^^ t) (q.natAbs * unitsPerOne * b.units) (1 * b.units) := by
          rw [div, if_neg hb, hunits, Nat.mul_right_comm, Nat.one_mul]
      _ = nearest (s ^^ t) (q.natAbs * unitsPerOne) 1 :=
          nearest_mul_right _ _ _ (Nat.pos_of_ne_zero hb)
  have hsign : signed (s ^^ t) q.natAbs = q := by
    refine Int.eq_of_mul_eq_mul_right (Int.natCast_ne_zero.mpr hb) ?_
    have hcast : (a.units : Int) = q.natAbs * b.units := by exact_mod_cast hunits
    obtain _ | _ := s <;> obtain _ | _ := t <;>
      simp only [signed_false, signed_true, Bool.xor_false, Bool.xor_true, Bool.not_false,
        Bool.not_true] at ha ⊢ <;>
      linarith
  rw [hquotient, scaled?_nearest (representable_mul_unitsPerOne hq), signed_mul, hsign]

/-- Rounding an integral number to an integer changes nothing. -/
theorem round_of_scaled? {q : Int} (hx : x.scaled? = some (q * unitsPerOne)) : x.round = x := by
  obtain ⟨s, m, rfl, hm⟩ := exists_of_scaled? hx
  have hunits : m.units = q.natAbs * unitsPerOne := by
    rw [← natAbs_signed s m.units, hm, Int.natAbs_mul, Int.natAbs_natCast]
  have hrounded : m.rounded = q.natAbs := by
    have hpos := unitsPerOne_pos
    have hsum : 2 * (q.natAbs * unitsPerOne) + unitsPerOne =
        unitsPerOne + q.natAbs * (2 * unitsPerOne) := by ring
    rw [Magnitude.rounded, hunits, hsum, Nat.add_mul_div_right _ _ (by omega),
      Nat.div_eq_of_lt (by omega), Nat.zero_add]
  rw [round, hrounded, ofNat, ← hunits, nearest_units]

/-- The parity of an integral number. -/
theorem roundsToOdd_iff {q : Int} (hx : x.scaled? = some (q * unitsPerOne)) :
    x.roundsToOdd = true ↔ Odd q := by
  obtain ⟨m, hm, htwo⟩ := exists_two
  have hy : two.scaled? = some (2 * unitsPerOne : Int) := by
    rw [htwo, scaled?, signed_false, hm]
    exact congrArg some (Int.natCast_mul 2 unitsPerOne)
  have hpos : (unitsPerOne : Int) ≠ 0 := Int.natCast_ne_zero.mpr unitsPerOne_pos.ne'
  have hrest := scaled?_modulo hx hy (mul_ne_zero (by decide) hpos)
  rw [roundsToOdd, round_of_scaled? hx, Bool.not_eq_true', ← Bool.not_eq_true,
    equal_iff hrest (Y := 0) rfl, ← Int.dvd_iff_tmod_eq_zero, Int.mul_dvd_mul_iff_right hpos,
    ← even_iff_two_dvd, Int.not_even_iff_odd]

end Binary64

end Formula
