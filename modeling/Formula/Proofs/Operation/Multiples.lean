import Formula.Proofs.Binary64.Quotient
import Formula.Proofs.Operation.Rounding
import Mathlib.Algebra.Order.Ring.Abs
import Mathlib.Order.Bounds.Basic

/-!
# Rounding to multiples

`Operation.RoundsToMultiple` says which multiple of the scale an integer is rounded to: the greatest
one that is not above it, the least one that is not below it, or the nearest one, and of two equally
near ones the one farther from zero. How often the scale goes into it is the rounded quotient
(`Operation.RoundsTo.roundsToMultiple`).

The operations find this number from the widened operands, with a rounded quotient, and multiply it
with the widened scale. It is the right one if the integer has at most 53 bits, or at most 52 where
halves matter, whatever the scale is (`Operation.rounding_div`). So the result is the right
multiple, widened and taken for an integer again (`Operation.apply_scale_eq`), which is that
multiple if it has at most 53 bits. Beyond that it can be a neighbour, which is no multiple of the
scale.
-/

namespace Formula

open Binary64 (signed unitsPerOne)

namespace Operation

variable {o : Operation} {f : Binary64 → Binary64} {a d d' k n n' : Nat} {q : ℚ} {i j m x : ℤ}

/-- The operation with the scale `d` rounds the integer `x` to the multiple `m`. -/
def RoundsToMultiple : Operation → ℤ → ℤ → ℤ → Prop
  | .floor, d, x, m => IsGreatest {k | d ∣ k ∧ k ≤ x} m
  | .ceiling, d, x, m => IsLeast {k | d ∣ k ∧ x ≤ k} m
  | .round, d, x, m => d ∣ m ∧ ∀ k, d ∣ k → |x - m| < |x - k| ∨ |x - m| = |x - k| ∧ |k| ≤ |m|
  | _, _, _, _ => False

/-- An integer is a multiple of one. -/
theorem RoundsToMultiple.eq_of_one (h : o.RoundsToMultiple 1 x m) : m = x := by
  cases o with
  | floor => exact le_antisymm h.1.2 (h.2 ⟨one_dvd x, le_rfl⟩)
  | ceiling => exact le_antisymm (h.2 ⟨one_dvd x, le_rfl⟩) h.1.2
  | round =>
    have hnear := h.2 x (one_dvd x)
    rw [sub_self, abs_zero] at hnear
    obtain hlt | ⟨heq, -⟩ := hnear
    · exact absurd hlt (not_lt.mpr (abs_nonneg _))
    · exact (sub_eq_zero.mp (abs_eq_zero.mp heq)).symm
  | _ => exact h.elim

/-! ### The nearest integer -/

/-- An integer below the rounded one is farther off, or as far off and of no larger magnitude. -/
private theorem RoundsTo.nearest_of_lt (h : round.RoundsTo q i) (hlt : j < i) :
    |q - i| < |q - j| ∨ |q - i| = |q - j| ∧ |j| ≤ |i| := by
  obtain ⟨hhalf, htie⟩ := h
  obtain ⟨hlower, hupper⟩ := abs_le.mp hhalf
  have hstep : (j : ℚ) + 1 ≤ i := by exact_mod_cast hlt
  have hfar : |q - j| = q - j := abs_of_nonneg (by linarith)
  obtain hnear | hequal := lt_or_ge |q - i| |q - j|
  · exact .inl hnear
  · -- two integers with the number half way between them
    have hq : q = i - 1 / 2 := by linarith
    have hj : j = i - 1 := by
      have hcast : (j : ℚ) = i - 1 := by linarith
      exact_mod_cast hcast
    have haway := htie (by rw [hq]; norm_num)
    have hpos : 0 < i := by
      by_contra hneg
      have hcast : (i : ℚ) ≤ 0 := by exact_mod_cast not_lt.mp hneg
      rw [hq, abs_of_neg (by linarith), abs_of_nonpos hcast] at haway
      linarith
    refine .inr ⟨le_antisymm (by linarith) hequal, ?_⟩
    rw [hj, abs_of_nonneg (by omega), abs_of_pos hpos]
    omega

/-- No integer is nearer, and none that is equally near is farther from zero. -/
theorem RoundsTo.nearest (h : round.RoundsTo q i) (j : ℤ) :
    |q - i| < |q - j| ∨ |q - i| = |q - j| ∧ |j| ≤ |i| := by
  obtain hlt | rfl | hgt := lt_trichotomy j i
  · exact h.nearest_of_lt hlt
  · exact .inr ⟨rfl, le_rfl⟩
  · -- the opposite numbers are in the opposite order
    have hneg := h.neg.nearest_of_lt (Int.neg_lt_neg hgt)
    rwa [Int.cast_neg, Int.cast_neg, neg_sub_neg, neg_sub_neg, abs_sub_comm, abs_sub_comm (j : ℚ),
      abs_neg, abs_neg] at hneg

/-- A multiple is found by the number of times that the scale goes into the integer. -/
theorem RoundsTo.roundsToMultiple (hd : 0 < d) (h : o.RoundsTo ((x : ℚ) / d) i) :
    o.RoundsToMultiple d x (d * i) := by
  have hpos : (0 : ℚ) < d := Nat.cast_pos.mpr hd
  have hle : ∀ j : ℤ, (j : ℚ) ≤ x / d ↔ d * j ≤ x := by
    intro j
    rw [le_div_iff₀ hpos, mul_comm]
    exact_mod_cast Iff.rfl
  have hge : ∀ j : ℤ, (x : ℚ) / d ≤ j ↔ x ≤ d * j := by
    intro j
    rw [div_le_iff₀ hpos, mul_comm]
    exact_mod_cast Iff.rfl
  have hmul : ∀ j j' : ℤ, j ≤ j' → d * j ≤ d * j' :=
    fun j j' hj => Int.mul_le_mul_of_nonneg_left hj (Int.natCast_nonneg d)
  cases o with
  | floor =>
    refine ⟨⟨dvd_mul_right _ _, (hle i).mp h.1⟩, ?_⟩
    rintro _ ⟨⟨j, rfl⟩, hj⟩
    have hlt : (j : ℚ) < i + 1 := ((hle j).mpr hj).trans_lt h.2
    exact hmul j i (Int.lt_add_one_iff.mp (by exact_mod_cast hlt))
  | ceiling =>
    refine ⟨⟨dvd_mul_right _ _, (hge i).mp h.2⟩, ?_⟩
    rintro _ ⟨⟨j, rfl⟩, hj⟩
    have hlt : (i : ℚ) - 1 < j := h.1.trans_le ((hge j).mpr hj)
    exact hmul i j (Int.sub_one_lt_iff.mp (by exact_mod_cast hlt))
  | round =>
    -- the distances from the multiples are those of the quotient from the integers, scaled
    have hscale : ∀ j : ℤ, ((|x - d * j| : ℤ) : ℚ) = d * |(x : ℚ) / d - j| := by
      intro j
      rw [Int.cast_abs, Int.cast_sub, Int.cast_mul, Int.cast_natCast, ← abs_of_pos hpos,
        ← abs_mul, abs_of_pos hpos, mul_sub, mul_div_cancel₀ _ hpos.ne']
    refine ⟨dvd_mul_right _ _, ?_⟩
    rintro _ ⟨j, rfl⟩
    obtain hlt | ⟨heq, habs⟩ := h.nearest j
    · left
      rwa [← Int.cast_lt (R := ℚ), hscale, hscale, mul_lt_mul_iff_right₀ hpos]
    · right
      refine ⟨?_, ?_⟩
      · rw [← Int.cast_inj (α := ℚ), hscale, hscale, heq]
      · rw [abs_mul, abs_mul]
        exact mul_le_mul_of_nonneg_left habs (abs_nonneg _)
  | _ => exact h.elim

/-! ### Quotients that compare alike -/

/-- In how many parts the operation cuts an integer. -/
def parts : Operation → Nat
  | .round => 2
  | _ => 1

private theorem parts_cases (o : Operation) : o.parts = 1 ∨ o.parts = 2 := by
  cases o <;> decide

private theorem parts_pos (o : Operation) : 0 < o.parts := by
  obtain h | h := o.parts_cases <;> omega

/-- Quotients that compare alike with integers have the same floor. -/
private theorem div_eq_div (hd : 0 < d) (hd' : 0 < d') (h : CompareAlike 1 n d n' d') :
    n / d = n' / d' := by
  refine eq_of_forall_le_iff fun j => ?_
  rw [Nat.le_div_iff_mul_le hd, Nat.le_div_iff_mul_le hd']
  simpa only [Nat.one_mul] using (h j).1

/-- Quotients that compare alike with integers have the same ceiling. -/
private theorem div_add_pred_eq (hd : 0 < d) (hd' : 0 < d') (h : CompareAlike 1 n d n' d') :
    (n + (d - 1)) / d = (n' + (d' - 1)) / d' := by
  refine eq_of_forall_ge_iff fun j => ?_
  rw [div_add_pred_le_iff hd, div_add_pred_le_iff hd']
  simpa only [Nat.one_mul] using (h j).2

/-- A quotient is rounded to `j + 1` or more if it reaches the half below. -/
theorem succ_le_div_half_iff (hd : 0 < d) (j : Nat) :
    j + 1 ≤ (2 * n + d) / (2 * d) ↔ (2 * j + 1) * d ≤ 2 * n := by
  have hmul : (j + 1) * (2 * d) = (2 * j + 1) * d + d := by ring
  rw [Nat.le_div_iff_mul_le (Nat.mul_pos Nat.two_pos hd), hmul, Nat.add_le_add_iff_right]

/-- Quotients that compare alike with halves of integers have the same nearest integer. -/
private theorem div_half_eq (hd : 0 < d) (hd' : 0 < d') (h : CompareAlike 2 n d n' d') :
    (2 * n + d) / (2 * d) = (2 * n' + d') / (2 * d') := by
  refine eq_of_forall_le_iff fun j => ?_
  cases j with
  | zero => exact iff_of_true (Nat.zero_le _) (Nat.zero_le _)
  | succ j =>
    rw [succ_le_div_half_iff hd, succ_le_div_half_iff hd']
    exact (h (2 * j + 1)).1

/-- **Quotients that compare alike are rounded alike.** -/
theorem roundQuotient_congr (h : o.rounding? = some f) (s : Bool) (hd : 0 < d) (hd' : 0 < d')
    (halike : CompareAlike o.parts n d n' d') :
    o.roundQuotient s n d = o.roundQuotient s n' d' := by
  obtain ⟨rfl, -⟩ | ⟨rfl, -⟩ | ⟨rfl, -⟩ := rounding?_cases h
  · cases s <;> simp only [roundQuotient, div_eq_div hd hd' halike,
      div_add_pred_eq hd hd' halike]
  · cases s <;> simp only [roundQuotient, div_eq_div hd hd' halike,
      div_add_pred_eq hd hd' halike]
  · cases s <;> simp only [roundQuotient, div_half_eq hd hd' halike]

/-! ### Widened operands -/

/-- Integers below `2 ^ 53` are widened exactly. -/
private theorem exists_ofNat_eq_finite (ha : a < 2 ^ 53) (s : Bool) :
    ∃ m, Binary64.ofNat s a = .finite s m ∧ m.units = a * unitsPerOne := by
  obtain ⟨m, hm⟩ := Binary64.representable_mul_unitsPerOne ha
  exact ⟨m, by rw [Binary64.ofNat, ← hm, Binary64.nearest_units], hm⟩

/-- **The quotient of the widened integer and scale is rounded as their own quotient is.** -/
theorem rounding_div (h : o.rounding? = some f) (hd : 0 < d) (hd' : d < 2 ^ 64)
    (ha : o.parts * a < 2 ^ 53) (s : Bool) :
    f ((Binary64.ofNat s a).div (.ofNat false d)) = .ofNat s (o.roundQuotient s a d) := by
  obtain ⟨e, he⟩ := Binary64.exists_widensTo hd hd'
  obtain ⟨b, hb, hbunits⟩ := he.nearest
  obtain ⟨m, hm, halike⟩ :=
    Binary64.exists_nearest_quotient o.parts_cases he.pos he.lt ha.le
  obtain ⟨c, hc, hcunits⟩ :=
    exists_ofNat_eq_finite ((Nat.le_mul_of_pos_left a o.parts_pos).trans_lt ha) s
  have hne : e * unitsPerOne ≠ 0 := Nat.mul_ne_zero he.pos.ne' Binary64.unitsPerOne_pos.ne'
  have hquotient : (Binary64.ofNat s a).div (.ofNat false d) = .finite s m := by
    rw [hc, Binary64.ofNat, Binary64.nearest_of_nearest? hb, Binary64.div, hcunits, hbunits,
      if_neg hne, Binary64.nearest_mul_right _ _ _ Binary64.unitsPerOne_pos, Bool.xor_false,
      Binary64.nearest_of_nearest? hm]
  rw [hquotient, rounding_finite h, roundQuotient_congr h s Binary64.unitsPerOne_pos hd
    (halike.trans (he.compareAlike ha))]

/-- The product with the widened scale is the widened product, if the scale is not rounded or goes
into the integer once at most. -/
theorem ofNat_mul (hd : 0 < d) (hd' : d < 2 ^ 64) (hk : k < 2 ^ 53) (hkd : k ≤ 1 ∨ d < 2 ^ 53)
    (s : Bool) : (Binary64.ofNat s k).mul (.ofNat false d) = .ofNat s (k * d) := by
  obtain ⟨e, he⟩ := Binary64.exists_widensTo hd hd'
  obtain ⟨b, hb, hbunits⟩ := he.nearest
  obtain ⟨c, hc, hcunits⟩ := exists_ofNat_eq_finite hk s
  have hproduct : (Binary64.ofNat s k).mul (.ofNat false d) = .ofNat s (k * e) := by
    have hunits : k * unitsPerOne * (e * unitsPerOne) = k * e * unitsPerOne * unitsPerOne := by
      ring
    have hone := Binary64.nearest_mul_right s (k * e * unitsPerOne) 1 Binary64.unitsPerOne_pos
    rw [Nat.one_mul] at hone
    rw [hc, Binary64.ofNat, Binary64.nearest_of_nearest? hb, Binary64.mul, hcunits, hbunits,
      Bool.xor_false, hunits, hone, Binary64.ofNat]
  -- one widened scale is the widened scale, even if it is rounded
  have honce : Binary64.ofNat s e = .ofNat s d := by
    rw [Binary64.ofNat, Binary64.ofNat, Binary64.nearest_of_nearest? hb, ← hbunits,
      Binary64.nearest_units]
  rw [hproduct]
  obtain hk | hsmall := hkd
  · obtain rfl | rfl := Nat.le_one_iff_eq_zero_or_eq_one.mp hk
    · rw [Nat.zero_mul, Nat.zero_mul]
    · rw [Nat.one_mul, Nat.one_mul, honce]
  · rw [he.small hsmall]

/-- **Rounding by way of the scale.** -/
theorem rounding_div_mul (h : o.rounding? = some f) (hd : 0 < d) (hd' : d < 2 ^ 64)
    (ha : o.parts * a < 2 ^ 53) (s : Bool) :
    (f ((Binary64.ofNat s a).div (.ofNat false d))).mul (.ofNat false d) =
      .ofNat s (o.roundQuotient s a d * d) := by
  have hsmall : a < 2 ^ 53 := (Nat.le_mul_of_pos_left _ o.parts_pos).trans_lt ha
  have hk : o.roundQuotient s a d ≤ a := roundQuotient_le h s hd (Nat.le_mul_of_pos_right a hd)
  rw [rounding_div h hd hd' ha]
  refine ofNat_mul hd hd' (hk.trans_lt hsmall) ?_ s
  obtain hlt | hge := Nat.lt_or_ge d (2 ^ 53)
  · exact .inr hlt
  · -- a scale that may be rounded is not below the integer
    exact .inl (roundQuotient_le h s hd (by omega))

/-! ### Results -/

/-- Zero is the same integer with either sign. -/
theorem integral_ofNat (s : Bool) (k : Nat) :
    Value.integral (.ofNat s k) = .integral (.ofInt (signed s k)) := by
  obtain rfl | hk := Nat.eq_zero_or_pos k
  · cases s <;> decide +kernel
  · rw [Binary64.ofInt, Binary64.natAbs_signed, Binary64.decide_signed_lt_zero s hk.ne']

private theorem atMost_zero {x : Binary64} {X : ℤ} (hx : x.scaled? = some X) (hX : 0 < X) :
    x.atMost (.zero false) = false := by
  have hzero : (Binary64.zero false).scaled? = some 0 := rfl
  rw [Binary64.atMost, Binary64.less, Binary64.equal, Binary64.compare?_of_scaled? hx hzero,
    compare_gt_iff_gt.mpr hX]
  rfl

/-- With two arguments the rounding is that to a scale. -/
private theorem apply_scale (h : o.rounding? = some f) (v scale : Value) :
    o.apply [v, scale] = Rounding.toScale o.name f v scale := by
  obtain ⟨rfl, rfl⟩ | ⟨rfl, rfl⟩ | ⟨rfl, rfl⟩ := rounding?_cases h <;> rfl

/-- A positive scale is none of those that are refused. -/
theorem toScale_of_pos {name : String} {v scale : Value} {x s : Binary64} {X : ℤ}
    (hv : v.number name = .ok x) (hscale : scale.number name = .ok s) (hs : s.scaled? = some X)
    (hX : 0 < X) (hinteger : scale.isInteger = true) :
    Rounding.toScale name f v scale = .ok (.integral ((f (x.div s)).mul s)) := by
  have hnan : s.isNaN = false := by
    obtain ⟨t, m, rfl, -⟩ := Binary64.exists_of_scaled? hs
    rfl
  unfold Rounding.toScale
  rw [hv, hscale]
  change (if (s.isNaN || s.atMost (.zero false)) = true then _ else _) = _
  rw [hnan, atMost_zero hs hX, hinteger]
  rfl

/-- The result is the right multiple, widened. -/
theorem apply_scale_eq (h : o.rounding? = some f) {n s : Int64} (hs : 0 < s.toInt)
    (hn : o.parts * n.toInt.natAbs < 2 ^ 53) :
    ∃ m, o.RoundsToMultiple s.toInt n.toInt m ∧
      o.apply [.integer n, .integer s] = .ok (.integral (.ofInt m)) := by
  have hle := Integer.natAbs_toInt_le s
  obtain ⟨d, hd⟩ := Int.eq_ofNat_of_zero_le hs.le
  have hpos : 0 < d := by omega
  have hd' : d < 2 ^ 64 := by omega
  obtain ⟨e, he⟩ := Binary64.exists_widensTo hpos hd'
  have hwidened : Binary64.ofInt64 s = .ofNat false d := by
    rw [Binary64.ofInt64, Binary64.ofInt, hd, Int.natAbs_natCast,
      decide_eq_false (Int.natCast_nonneg d).not_gt]
  have hscaled : (Binary64.ofInt64 s).scaled? = some (signed false (e * unitsPerOne)) := by
    rw [hwidened, he.scaled?_ofNat]
  have hscaled_pos : 0 < signed false (e * unitsPerOne) :=
    Int.natCast_pos.mpr (Nat.mul_pos he.pos Binary64.unitsPerOne_pos)
  have hrounds := roundsTo_roundQuotient h (decide (n.toInt < 0)) n.toInt.natAbs hpos
  rw [Binary64.signed_natAbs] at hrounds
  rw [hd]
  refine ⟨_, hrounds.roundsToMultiple hpos, ?_⟩
  rw [apply_scale h, toScale_of_pos rfl rfl hscaled hscaled_pos rfl, hwidened, Binary64.ofInt64,
    Binary64.ofInt, rounding_div_mul h hpos hd' hn, integral_ofNat, Binary64.signed_mul, mul_comm]

/-- **An integer is rounded to a multiple of the scale.** The result for an integer of at most 53
bits, or at most 52 where halves matter, is the right multiple, if this has at most 53 bits as well,
and otherwise what that multiple is widened to. With the scale one the integer is left as it is,
as without a scale. -/
theorem apply_multiples (h : o.rounding? = some f) {n s : Int64} (hs : 0 < s.toInt)
    (hn : n.toInt.natAbs < 2 ^ 53) (hround : o = .round → n.toInt.natAbs < 2 ^ 52) :
    ∃ m, o.RoundsToMultiple s.toInt n.toInt m ∧
      o.apply [.integer n, .integer s] = .ok (.integral (.ofInt m)) ∧
      (m.natAbs ≤ 2 ^ 53 → ∃ r : Int64, r.toInt = m ∧
        o.apply [.integer n, .integer s] = .ok (.integer r)) ∧
      (s.toInt = 1 → o.apply [.integer n, .integer s] = o.apply [.integer n]) := by
  have hparts : o.parts * n.toInt.natAbs < 2 ^ 53 := by
    obtain ⟨rfl, -⟩ | ⟨rfl, -⟩ | ⟨rfl, -⟩ := rounding?_cases h
    · simpa only [parts, Nat.one_mul] using hn
    · simpa only [parts, Nat.one_mul] using hn
    · have hlt := hround rfl
      simp only [parts]
      omega
  obtain ⟨m, hm, happly⟩ := apply_scale_eq h hs hparts
  have hexact : m.natAbs ≤ 2 ^ 53 → ∃ r : Int64, r.toInt = m ∧
      o.apply [.integer n, .integer s] = .ok (.integer r) := by
    intro hsmall
    have hvalue : (Binary64.ofInt m).value? = some (m : ℚ) := by
      rw [Binary64.ofInt, Binary64.value?_ofNat (Binary64.representable_whole hsmall),
        Binary64.signed_natAbs]
    obtain ⟨r, hr, htoInt⟩ := integral_of_fits hvalue
      (Integer.fits_of_natAbs_lt (hsmall.trans_lt (by decide)))
    exact ⟨r, htoInt, by rw [happly, hr]⟩
  refine ⟨m, hm, happly, hexact, fun hone => ?_⟩
  rw [hone] at hm
  obtain rfl := hm.eq_of_one
  obtain ⟨r, hr, hresult⟩ := hexact hn.le
  rw [hresult, apply_integer h, Int64.toInt_inj.mp hr]

/-- A half goes away from zero: twenty-five below zero is rounded to thirty below. -/
theorem apply_round_to_tens :
    (0 < (10 : Int64).toInt ∧ (-25 : Int64).toInt.natAbs < 2 ^ 52) ∧
      round.RoundsToMultiple 10 (-25) (-30) ∧
      round.apply [.integer (-25), .integer 10] = .ok (.integer (-30)) := by
  refine ⟨by decide, ?_⟩
  obtain ⟨m, hm, -, hexact, -⟩ := apply_multiples (o := round) rfl (n := -25) (s := 10)
    (by decide) (by decide) fun _ => by decide
  have hscale : (10 : Int64).toInt = 10 := by decide
  have hnumber : (-25 : Int64).toInt = -25 := by decide
  rw [hscale, hnumber] at hm
  obtain rfl : m = -30 := by
    obtain ⟨⟨k, rfl⟩, hnear⟩ := hm
    have hthirty := hnear (-30) ⟨-3, by decide⟩
    simp only [abs_eq_max_neg] at hthirty
    omega
  obtain ⟨r, hr, happly⟩ := hexact (by decide)
  obtain rfl : r = -30 := Int64.toInt_inj.mp hr
  exact ⟨hm, happly⟩

/-- From `2 ^ 53` on an integer need not be its own widened number, so that it is not left as it is
with the scale one, as it is without a scale; nor is a multiple, so that the result is no multiple;
and the largest integer is no integer any more. From `2 ^ 52` on a third can be widened to a
half. -/
theorem apply_multiples_beyond :
    (floor.RoundsToMultiple 1 9007199254740993 9007199254740993 ∧
      floor.apply [.integer 9007199254740993, .integer 1] = .ok (.integer 9007199254740992) ∧
      floor.apply [.integer 9007199254740993] = .ok (.integer 9007199254740993)) ∧
    (ceiling.apply [.integer 9007199254740000, .integer 3002399751580331] =
        .ok (.integer 9007199254740992) ∧
      ¬(3002399751580331 : ℤ) ∣ 9007199254740992) ∧
    ceiling.apply [.integer 9223372036854775807, .integer 1] =
      .ok (.float (.ofNat false (2 ^ 63))) ∧
    (round.apply [.integer 6755399441055745, .integer 3] = .ok (.integer 6755399441055747) ∧
      |(6755399441055745 : ℤ) - 6755399441055744| < |(6755399441055745 : ℤ) - 6755399441055747| ∧
      (3 : ℤ) ∣ 6755399441055744) := by
  refine ⟨⟨⟨⟨one_dvd _, le_rfl⟩, fun k hk => hk.2⟩, ?_, ?_⟩, ⟨?_, ?_⟩, ?_, ?_, ?_, ?_⟩ <;>
    decide +kernel

end Operation

end Formula
