import Formula.Proofs.Binary64.Integral
import Formula.Proofs.Binary64.Monotone
import Formula.Proofs.Binary64.Quotient
import Formula.Proofs.Binary64.Widening
import Mathlib.Algebra.Order.Field.Basic

/-!
# The nearest number

A number is nearest to a rational one if no finite number is nearer, and if its significand is even
where another one is as near (`Binary64.IsNearest`). This says which number it is, the sign of zero
aside (`Binary64.IsNearest.equal`): halfway between two numbers with even significands there would
be a third one.

A quotient that is not too large is rounded to the nearest number (`Binary64.isNearest_nearest`).
Where the exponent of the result is, the numbers are the multiples of one step, of which
`roundHalfEven` finds the nearest; those with a lesser exponent are all below the quotient, and
farther from it than the least number with this exponent.

`Binary64.integer_conversions` is the account of integers of sixty-four bits: how they are widened,
and which numbers are taken for them.
-/

namespace Formula

/-- Halfway between two integers a quotient is rounded to the even one. -/
theorem roundHalfEven_ties (n : Nat) {d : Nat} (hd : 0 < d) : roundHalfEven n d % 2 = 0 ∨
    2 * n < 2 * (roundHalfEven n d * d) + d ∧ 2 * (roundHalfEven n d * d) < 2 * n + d := by
  have hdiv : n / d * d + n % d = n := Nat.div_add_mod' n d
  have hmod := Nat.mod_lt n hd
  rw [roundHalfEven]
  split
  · right
    omega
  · split
    · right
      rw [Nat.add_one_mul (n / d) d]
      omega
    · left
      omega

/-- No integer is nearer to a quotient than the one that it is rounded to, and if another one is
as near, that one is even. -/
theorem roundHalfEven_nearest (n : Nat) {d : Nat} (hd : 0 < d) (j : Nat) :
    (((roundHalfEven n d * d : Nat) : Int) - n).natAbs ≤ (((j * d : Nat) : Int) - n).natAbs ∧
      ((((roundHalfEven n d * d : Nat) : Int) - n).natAbs = (((j * d : Nat) : Int) - n).natAbs →
        j = roundHalfEven n d ∨ roundHalfEven n d % 2 = 0) := by
  obtain ⟨hlower, hupper⟩ := roundHalfEven_error n hd
  have hties := roundHalfEven_ties n hd
  generalize roundHalfEven n d = q at *
  obtain hlt | rfl | hgt := Nat.lt_trichotomy j q
  · have hstep : j * d + d ≤ q * d := by
      rw [← Nat.add_one_mul]
      exact Nat.mul_le_mul_right d hlt
    generalize j * d = other at *
    generalize q * d = found at *
    omega
  · exact ⟨le_rfl, fun _ => .inl rfl⟩
  · have hstep : q * d + d ≤ j * d := by
      rw [← Nat.add_one_mul]
      exact Nat.mul_le_mul_right d hgt
    generalize j * d = other at *
    generalize q * d = found at *
    omega

namespace Binary64

variable {x y : Binary64} {m : Magnitude} {n d k : Nat} {s : Bool} {p q r : ℚ}

/-! ### Magnitudes -/

namespace Magnitude

private theorem units_injective : Function.Injective units := by
  intro a b h
  refine rank_injective (le_antisymm (not_lt.mp fun hlt => ?_) (not_lt.mp fun hlt => ?_))
  · exact (rank_lt_rank_iff.mp hlt).ne h.symm
  · exact (rank_lt_rank_iff.mp hlt).ne h

/-- Consecutive magnitudes have significands of different parity, the one that is carried into the
exponent included. -/
theorem rank_mod_two (m : Magnitude) : m.rank % 2 = m.significand % 2 := by
  rw [rank]
  omega

/-- How far the magnitude is from the quotient `n / d` of units, in parts of the divisor. -/
def distance (m : Magnitude) (n d : Nat) : Nat := (((m.units * d : Nat) : Int) - n).natAbs

/-- No magnitude is nearer to the quotient `n / d` of units; if another one is as near, the
significand is even. -/
def IsNearest (m : Magnitude) (n d : Nat) : Prop :=
  ∀ b : Magnitude, m.distance n d ≤ b.distance n d ∧
    (m.distance n d = b.distance n d → b = m ∨ m.significand % 2 = 0)

/-- A carried significand is even, as `2 ^ 53` is. -/
theorem eq_of_pack? {significand exponent : Nat} {normal : exponent = 0 ∨ 2 ^ 52 ≤ significand}
    (hle : significand ≤ 2 ^ 53) (h : pack? significand exponent normal = some m) :
    m.units = significand * 2 ^ exponent ∧ m.significand % 2 = significand % 2 := by
  rw [pack?] at h
  split at h
  · split at h
    · obtain rfl := Option.some.inj h
      exact ⟨rfl, rfl⟩
    · cases h
  · obtain rfl : significand = 2 ^ 53 := by omega
    split at h
    · obtain rfl := Option.some.inj h
      refine ⟨?_, show 2 ^ 52 % 2 = 2 ^ 53 % 2 by decide⟩
      change 2 ^ 52 * 2 ^ (exponent + 1) = 2 ^ 53 * 2 ^ exponent
      rw [Nat.pow_succ]
      omega
    · cases h

/-- A magnitude with a lesser exponent is below the quotient, and farther from it than the least
one with the exponent of the quotient. -/
theorem distance_lt_of_exponent_lt {b : Magnitude} {e : Nat} (h : b.exponent < e)
    (hn : 2 ^ 52 * (d * 2 ^ e) ≤ n) (hd : 0 < d) :
    (((2 ^ 52 * (d * 2 ^ e) : Nat) : Int) - n).natAbs < b.distance n d := by
  have hunits : b.units * d < 2 ^ 52 * (d * 2 ^ e) := by
    calc b.units * d < 2 ^ 53 * 2 ^ b.exponent * d :=
          (Nat.mul_lt_mul_right hd).mpr b.units_lt_two_pow_mul
      _ = 2 ^ 52 * 2 ^ (b.exponent + 1) * d := by
          rw [Nat.pow_succ]
          ring
      _ ≤ 2 ^ 52 * 2 ^ e * d :=
          Nat.mul_le_mul_right d (Nat.mul_le_mul_left _ (Nat.pow_le_pow_right (by decide) h))
      _ = 2 ^ 52 * (d * 2 ^ e) := by ring
  rw [distance]
  omega

/-- **A quotient is rounded to the nearest magnitude.** -/
theorem isNearest_of_nearest? (hd : 0 < d) (h : nearest? n d = some m) : m.IsNearest n d := by
  obtain ⟨hupper, hlower⟩ := roundHalfEven_bounds n d
  obtain ⟨hunits, hparity⟩ := eq_of_pack? hupper h
  have hstep : 0 < d * 2 ^ exponentFor (n / d) := Nat.mul_pos hd (Nat.two_pow_pos _)
  have hfull := (significand_bounds (n / d)).2
  rw [Nat.div_div_eq_div_mul, Nat.le_div_iff_mul_le hstep] at hfull
  have hnearest := roundHalfEven_nearest n hstep
  have hdistance : m.distance n d = (((roundHalfEven n (d * 2 ^ exponentFor (n / d)) *
      (d * 2 ^ exponentFor (n / d)) : Nat) : Int) - n).natAbs := by
    rw [distance, hunits, Nat.mul_assoc, Nat.mul_comm (2 ^ _) d]
  intro b
  obtain hlt | hge := Nat.lt_or_ge b.exponent (exponentFor (n / d))
  · have hle := (hnearest (2 ^ 52)).1
    have hgt := distance_lt_of_exponent_lt hlt (hfull.resolve_left (by omega)) hd
    omega
  · obtain ⟨j, hj⟩ : 2 ^ exponentFor (n / d) ∣ b.units :=
      (Nat.pow_dvd_pow 2 hge).trans b.two_pow_dvd
    have hdistance' : b.distance n d =
        (((j * (d * 2 ^ exponentFor (n / d)) : Nat) : Int) - n).natAbs := by
      rw [distance, hj, Nat.mul_comm _ j, Nat.mul_assoc, Nat.mul_comm _ d]
    rw [hdistance, hdistance', hparity]
    refine ⟨(hnearest j).1, fun heq => ((hnearest j).2 heq).imp_left fun hsame => ?_⟩
    refine units_injective ?_
    rw [hj, hunits, hsame, Nat.mul_comm]

end Magnitude

/-! ### Numbers -/

/-- Is the number finite with an even significand? -/
def hasEvenSignificand : Binary64 → Bool
  | .finite _ m => m.significand % 2 == 0
  | _ => false

/-- The number is finite, and no finite number is nearer to the given rational one; if another
value is as near, the number's significand is even. -/
def IsNearest (x : Binary64) (r : ℚ) : Prop :=
  ∃ p, x.value? = some p ∧ ∀ (y : Binary64) (q : ℚ), y.value? = some q → |p - r| ≤ |q - r| ∧
    (|p - r| = |q - r| → q = p ∨ x.hasEvenSignificand = true)

/-- The distance of a number from a quotient of units, in parts of the divisor. -/
theorem abs_value_sub (hd : 0 < d) (i j : ℤ) :
    |(i : ℚ) / unitsPerOne - (j : ℚ) / (d * unitsPerOne)| =
      ((i * d - j).natAbs : ℚ) / (d * unitsPerOne) := by
  have hpos : (0 : ℚ) < d := Nat.cast_pos.mpr hd
  have hquotient : ((i * d - j : ℤ) : ℚ) / (d * unitsPerOne) =
      (i : ℚ) / unitsPerOne - (j : ℚ) / (d * unitsPerOne) := by
    rw [Int.cast_sub, Int.cast_mul, Int.cast_natCast, sub_div, mul_comm (i : ℚ),
      mul_div_mul_left _ _ hpos.ne']
  rw [← hquotient, abs_div, abs_of_pos (mul_pos hpos unitsPerOne_cast_pos), Nat.cast_natAbs,
    Int.cast_abs]

private theorem distance_signed (s : Bool) (b : Magnitude) (n d : Nat) :
    (signed s b.units * d - signed s n).natAbs = b.distance n d := by
  rw [Magnitude.distance, ← signed_mul]
  cases s <;> simp only [signed_false, signed_true]
  omega

/-- A number with the opposite sign is no nearer than zero is. -/
theorem distance_signed_not (s : Bool) (b : Magnitude) (n d : Nat) :
    (signed (!s) b.units * d - signed s n).natAbs = b.units * d + Magnitude.zero.distance n d := by
  have hzero : Magnitude.zero.units * d = 0 := by
    rw [Magnitude.zero.units_eq_zero_iff.mpr rfl, Nat.zero_mul]
  rw [Magnitude.distance, hzero, ← signed_mul]
  cases s <;> simp only [signed_false, signed_true, Bool.not_true, Bool.not_false] <;> omega

/-- The nearest magnitude gives the nearest number, whose sign is that of the quotient. -/
theorem Magnitude.IsNearest.signed (h : m.IsNearest n d) (hd : 0 < d) (s t : Bool)
    (b : Magnitude) :
    m.distance n d ≤ (signed t b.units * d - signed s n).natAbs ∧
      (m.distance n d = (signed t b.units * d - signed s n).natAbs →
        signed t b.units = signed s m.units ∨ m.significand % 2 = 0) := by
  by_cases hts : t = s
  · subst hts
    rw [distance_signed]
    exact ⟨(h b).1, fun heq => ((h b).2 heq).imp_left fun hsame => by rw [hsame]⟩
  · obtain rfl : t = !s := Bool.eq_not.mpr hts
    obtain ⟨hle, hties⟩ := h zero
    rw [distance_signed_not]
    refine ⟨by omega, fun heq => (hties (by omega)).imp_left ?_⟩
    -- as near as zero is zero alone
    rintro rfl
    have hunits : b.units = 0 := (Nat.mul_eq_zero.mp (by omega)).resolve_right hd.ne'
    rw [hunits, zero.units_eq_zero_iff.mpr rfl, signed_zero, signed_zero]

/-- **A number is rounded to the nearest one**, unless it is too large. -/
theorem isNearest_nearest (hd : 0 < d) (h : (nearest s n d).isFinite = true) :
    (nearest s n d).IsNearest ((signed s n : ℚ) / (d * unitsPerOne)) := by
  unfold nearest at h ⊢
  cases hm : Magnitude.nearest? n d with
  | none => rw [hm] at h; cases h
  | some m =>
    have hpos : (0 : ℚ) < d * unitsPerOne := mul_pos (Nat.cast_pos.mpr hd) unitsPerOne_cast_pos
    refine ⟨_, value?_finite s m, fun y q hy => ?_⟩
    obtain ⟨t, b, rfl, rfl⟩ := exists_of_value? hy
    obtain ⟨hle, hties⟩ := (Magnitude.isNearest_of_nearest? hd hm).signed hd s t b
    rw [abs_value_sub hd, abs_value_sub hd, div_le_div_iff_of_pos_right hpos,
      div_left_inj' hpos.ne', Nat.cast_le, Nat.cast_inj, distance_signed]
    refine ⟨hle, fun heq => (hties heq).imp (fun hsame => by rw [hsame]) fun heven => ?_⟩
    exact beq_iff_eq.mpr heven

/-! ### There is but one nearest number -/

/-- The significand is even if the rank is, because an exponent takes up an even number of ranks. -/
private theorem hasEvenSignificand_iff_rank :
    (finite s m).hasEvenSignificand = true ↔ m.rank % 2 = 0 := by
  rw [hasEvenSignificand, beq_iff_eq, m.rank_mod_two]

/-- Two even places are not next to each other. -/
theorem signed_succ_lt {t : Bool} {u v w : Nat} (h : signed s u < signed t v) (hu : u % 2 = 0)
    (hv : v % 2 = 0) (huw : u < w) (hvw : v < w) :
    signed s u + 1 < signed t v ∧ (signed s u + 1).natAbs < w := by
  cases s <;> cases t <;> simp only [signed_false, signed_true] at h ⊢ <;> omega

/-- What stands in front of the infinite places is finite. -/
theorem exists_value?_of_place? {i : ℤ} (hx : x.place? = some i) (h : i.natAbs < infiniteRank) :
    ∃ p, x.value? = some p := by
  cases x with
  | finite s m => exact ⟨_, value?_finite s m⟩
  | infinite s =>
    rw [← Option.some.inj hx, natAbs_signed] at h
    exact absurd h (Nat.lt_irrefl _)
  | nan => cases hx

/-- Between two numbers with even significands there is another one. -/
theorem exists_between (hp : x.value? = some p) (hq : y.value? = some q) (hlt : p < q)
    (hx : x.hasEvenSignificand = true) (hy : y.hasEvenSignificand = true) :
    ∃ (z : Binary64) (v : ℚ), z.value? = some v ∧ p < v ∧ v < q := by
  obtain ⟨s, a, rfl, -⟩ := exists_of_value? hp
  obtain ⟨t, b, rfl, -⟩ := exists_of_value? hq
  have ha : (finite s a).place? = some (signed s a.rank) := rfl
  have hb : (finite t b).place? = some (signed t b.rank) := rfl
  have hless := (less_iff_of_place? ha hb).mp ((less_iff_of_value? hp hq).mpr hlt)
  obtain ⟨hgap, hfinite⟩ := signed_succ_lt hless (hasEvenSignificand_iff_rank.mp hx)
    (hasEvenSignificand_iff_rank.mp hy) a.rank_lt b.rank_lt
  obtain ⟨z, -, hz⟩ := exists_of_natAbs_le hfinite.le
  obtain ⟨v, hv⟩ := exists_value?_of_place? hz hfinite
  refine ⟨z, v, hv, (less_iff_of_value? hp hv).mp ?_, (less_iff_of_value? hv hq).mp ?_⟩
  · exact (less_iff_of_place? ha hz).mpr (Int.lt_succ _)
  · exact (less_iff_of_place? hz hb).mpr hgap

/-- A number is in the middle of two others if it is as near to the one as to the other; whatever
lies between these is nearer. -/
theorem abs_sub_lt_of_between {v : ℚ} (heq : |p - r| = |q - r|) (hpv : p < v) (hvq : v < q) :
    |v - r| < |p - r| := by
  have hmiddle : p - r = -(q - r) :=
    (abs_eq_abs.mp heq).resolve_left fun h => (hpv.trans hvq).ne (sub_left_injective h)
  have hneg : p - r < 0 := by linarith
  rw [abs_of_neg hneg, abs_lt]
  exact ⟨by linarith, by linarith⟩

/-- **A nearest number is the only one**, but for the sign of zero. -/
theorem IsNearest.equal (hx : x.IsNearest r) (hy : y.IsNearest r) : x.equal y = true := by
  obtain ⟨p, hp, hx⟩ := hx
  obtain ⟨q, hq, hy⟩ := hy
  rw [equal_iff_of_value? hp hq]
  by_contra hne
  have heq : |p - r| = |q - r| := le_antisymm (hx y q hq).1 (hy x p hp).1
  have hxeven := ((hx y q hq).2 heq).resolve_left (Ne.symm hne)
  have hyeven := ((hy x p hp).2 heq.symm).resolve_left hne
  obtain hlt | hgt := lt_or_gt_of_ne hne
  · obtain ⟨z, v, hv, hpv, hvq⟩ := exists_between hp hq hlt hxeven hyeven
    exact (abs_sub_lt_of_between heq hpv hvq).not_ge (hx z v hv).1
  · obtain ⟨z, v, hv, hqv, hvp⟩ := exists_between hq hp hgt hyeven hxeven
    exact (abs_sub_lt_of_between heq.symm hqv hvp).not_ge (hy z v hv).1

/-! ### Integers of sixty-four bits -/

/-- An integer is widened to the number nearest to it. -/
theorem isNearest_ofInt64 (n : Int64) : (ofInt64 n).IsNearest (n.toInt : ℚ) := by
  have hle := Integer.natAbs_toInt_le n
  obtain ⟨j, hj, -⟩ := exists_ofNat_eq (k := n.toInt.natAbs) (by omega) (decide (n.toInt < 0))
  have hfinite : (ofNat (decide (n.toInt < 0)) n.toInt.natAbs).isFinite = true := by
    obtain ⟨s, m, hm, -⟩ := exists_of_scaled? hj
    rw [hm, isFinite]
  have hnearest := isNearest_nearest Nat.one_pos hfinite
  have hvalue : (signed (decide (n.toInt < 0)) (n.toInt.natAbs * unitsPerOne) : ℚ) /
      ((1 : Nat) * unitsPerOne) = n.toInt := by
    rw [signed_mul, signed_natAbs, Nat.cast_one, one_mul, Int.cast_mul, Int.cast_natCast,
      mul_div_cancel_right₀ _ unitsPerOne_cast_pos.ne']
  rw [hvalue] at hnearest
  exact hnearest

/-- Integers of at most 53 bits can be represented, and so can the least one of all. -/
theorem exists_value?_eq {n : Int64} (h : n.toInt.natAbs ≤ 2 ^ 53 ∨ n = Int64.minValue) :
    ∃ x : Binary64, x.value? = some (n.toInt : ℚ) := by
  obtain h | rfl := h
  · refine ⟨ofInt n.toInt, ?_⟩
    rw [ofInt, value?_ofNat (representable_whole h), signed_natAbs]
  · exact ⟨int64Bound.neg, value?_neg_int64Bound⟩

/-- **Integers are widened to the nearest number, in order, and found again where that is exact.**
A number is taken for an integer exactly if it is finite and has the integer for its value. The
bound above all integers is not, while the one below is the least integer; the negative zero is
taken for zero. -/
theorem integer_conversions (m n : Int64) (x : Binary64) :
    ((ofInt64 n).IsNearest n.toInt ∧ (x.IsNearest n.toInt → x.equal (ofInt64 n) = true)) ∧
      (m ≤ n → (ofInt64 m).atMost (ofInt64 n) = true) ∧
      (x.toInt64? = some n ↔ x.value? = some (n.toInt : ℚ)) ∧
      (x.toInt64? = some n → (ofInt64 n).equal x = true) ∧
      ((ofInt64 n).toInt64? = some n ↔ ∃ y : Binary64, y.value? = some (n.toInt : ℚ)) ∧
      (n.toInt.natAbs ≤ 2 ^ 53 ∨ n = Int64.minValue → (ofInt64 n).toInt64? = some n) ∧
      (int64Bound.value? = some (2 ^ 63) ∧ int64Bound.toInt64? = none) ∧
      (int64Bound.neg.value? = some (-2 ^ 63) ∧
        int64Bound.neg.toInt64? = some Int64.minValue) ∧
      (zero true).toInt64? = some 0 := by
  have hfound : (ofInt64 n).toInt64? = some n ↔ ∃ y : Binary64, y.value? = some (n.toInt : ℚ) := by
    rw [toInt64?_eq_some_iff_value?]
    exact ⟨fun h => ⟨_, h⟩, fun ⟨y, hy⟩ => value?_ofInt64 hy⟩
  refine ⟨⟨isNearest_ofInt64 n, fun h => h.equal (isNearest_ofInt64 n)⟩,
    fun h => atMost_ofInt64 (Int64.le_iff_toInt_le.mp h), toInt64?_eq_some_iff_value?, fun h => ?_,
    hfound, fun h => hfound.mpr (exists_value?_eq h), ⟨?_, ?_⟩, ⟨?_, ?_⟩, ?_⟩
  · have hvalue := value?_of_toInt64? h
    exact (equal_iff_of_value? (value?_ofInt64 hvalue) hvalue).mpr rfl
  · rw [value?_int64Bound]
    norm_num
  · rw [toInt64?_of_value? value?_int64Bound, Integer.ofInt?_eq_none_iff]
    decide
  · rw [value?_neg value?_int64Bound]
    norm_num
  · exact toInt64?_eq_some_iff_value?.mpr value?_neg_int64Bound
  · refine toInt64?_eq_some_iff_value?.mpr ?_
    rw [zero, value?_finite, Magnitude.zero.units_eq_zero_iff.mpr rfl, signed_zero, Int.cast_zero,
      zero_div, Int64.toInt_zero, Int.cast_zero]

/-- The largest integer is widened to the bound above all of them, which is not taken for it: no
number has its value. -/
theorem integer_conversions_maxValue :
    ofInt64 Int64.maxValue = int64Bound ∧ (ofInt64 Int64.maxValue).toInt64? = none ∧
      ¬∃ y : Binary64, y.value? = some (Int64.maxValue.toInt : ℚ) := by
  have hbound : ofInt64 Int64.maxValue = int64Bound := by decide +kernel
  obtain ⟨-, -, -, -, hfound, -, ⟨-, hnone⟩, -⟩ := integer_conversions 0 Int64.maxValue .nan
  rw [hbound] at hfound ⊢
  exact ⟨rfl, hnone, fun h => nomatch hnone.symm.trans (hfound.mpr h)⟩

end Binary64

end Formula
