import Formula.Binary64.Rounding
import Mathlib.Order.Defs.LinearOrder
import Mathlib.Tactic.Ring

/-!
# What rounds to a magnitude

A quotient of units rounds to a magnitude if it lies no farther from it than half way to the next
one. Below a power of two the magnitudes are twice as dense, so that the way down is only half as
far there; and half way itself belongs to the magnitude whose significand is even.

`Binary64.Magnitude.Near` says this with whole numbers, and `Binary64.Magnitude.nearest?_of_near`
that such a quotient rounds to the magnitude.
-/

namespace Formula

/-- The quotient is rounded to a number if it lies no farther from it than one half, and less far
unless the number is even. -/
theorem roundHalfEven_eq {n d q : Nat} (hd : 0 < d) (hlower : 2 * (q * d) ≤ 2 * n + d)
    (hupper : 2 * n ≤ 2 * (q * d) + d)
    (hties : q % 2 = 0 ∨ 2 * (q * d) < 2 * n + d ∧ 2 * n < 2 * (q * d) + d) :
    roundHalfEven n d = q := by
  by_cases h : q * d ≤ n
  · -- the number is the quotient, rounded downward
    obtain ⟨r, rfl⟩ := Nat.exists_eq_add_of_le h
    have hr : r < d := by omega
    have hdiv : (q * d + r) / d = q := by
      rw [Nat.add_comm, Nat.add_mul_div_right _ _ hd, Nat.div_eq_of_lt hr, Nat.zero_add]
    have hmod : (q * d + r) % d = r := by
      rw [Nat.add_comm, Nat.add_mul_mod_self_right, Nat.mod_eq_of_lt hr]
    rw [roundHalfEven, hdiv, hmod]
    split
    · rfl
    · split <;> omega
  · -- the number is the next one behind the quotient
    obtain ⟨q, rfl⟩ := Nat.exists_eq_add_of_lt (Nat.pos_of_ne_zero fun hq : q = 0 => by
      rw [hq] at h; omega)
    rw [Nat.zero_add] at *
    have hmul : (q + 1) * d = q * d + d := Nat.succ_mul q d
    obtain ⟨r, hr⟩ := Nat.exists_eq_add_of_le (show q * d ≤ n by omega)
    have hdiv : n / d = q := by
      rw [hr, Nat.add_comm, Nat.add_mul_div_right _ _ hd, Nat.div_eq_of_lt (by omega),
        Nat.zero_add]
    have hmod : n % d = r := by
      rw [hr, Nat.add_comm, Nat.add_mul_mod_self_right, Nat.mod_eq_of_lt (by omega)]
    rw [roundHalfEven, hdiv, hmod]
    split
    · omega
    · split <;> omega

namespace Binary64

/-- The power of two that a unit is the reciprocal of, with an exponent that is not multiplied
out. -/
theorem exists_unitsPerOne_eq : ∃ p, p = 1074 ∧ unitsPerOne = 2 ^ p := ⟨_, rfl, rfl⟩

theorem unitsPerOne_pos : 0 < unitsPerOne := by
  obtain ⟨p, -, hp⟩ := exists_unitsPerOne_eq
  rw [hp]
  exact Nat.two_pow_pos p

/-- The exponent of a number of units that has 53 bits in front of its power of two, or fewer if
the exponent is the least. -/
theorem exponentFor_eq {q e : Nat} (hupper : q < 2 ^ 53 * 2 ^ e)
    (hlower : e = 0 ∨ 2 ^ 52 * 2 ^ e ≤ q) : exponentFor q = e := by
  rw [exponentFor]
  by_cases hq : q = 0
  · subst hq
    have hpos := Nat.two_pow_pos e
    rw [Nat.log2_zero]
    omega
  · have hlog : q.log2 < 53 + e := by
      rw [Nat.log2_lt hq, Nat.pow_add]
      exact hupper
    obtain rfl | hlower := hlower
    · omega
    · have hlog' : 52 + e ≤ q.log2 := by
        rw [Nat.le_log2 hq, Nat.pow_add]
        exact hlower
      omega

namespace Magnitude

variable {m : Magnitude} {n d : Nat}

/-- How many quarters of a step below the magnitude there are half way to the next one. -/
def quartersBelow (m : Magnitude) : Nat :=
  if m.significand = 2 ^ 52 ∧ m.exponent ≠ 0 then 1 else 2

/-- The quotient `n / d` of units is as near to the magnitude as half way to the next ones; if the
significand is odd, it is nearer. -/
structure Near (m : Magnitude) (n d : Nat) : Prop where
  lower : 4 * m.units * d ≤ 4 * n + m.quartersBelow * 2 ^ m.exponent * d
  upper : 4 * n ≤ (4 * m.units + 2 * 2 ^ m.exponent) * d
  ties : m.significand % 2 = 0 ∨
    4 * m.units * d < 4 * n + m.quartersBelow * 2 ^ m.exponent * d ∧
      4 * n < (4 * m.units + 2 * 2 ^ m.exponent) * d

/-- Half way to the next magnitude below there are two quarters of a step at most. -/
theorem quartersBelow_le (m : Magnitude) : m.quartersBelow ≤ 2 := by
  rw [quartersBelow]
  split <;> omega

/-! ### The value of a quotient -/

/-- Comparisons between multiples of the numerator and of the denominator depend on the value of
the quotient alone. -/
theorem le_iff_of_mul_eq {n' d' : Nat} (hd : 0 < d) (hd' : 0 < d') (heq : n' * d = n * d')
    (a b a' b' : Nat) : a * n' + b * d' ≤ a' * n' + b' * d' ↔ a * n + b * d ≤ a' * n + b' * d := by
  have hscale : ∀ x y : Nat, (x * n' + y * d') * d = (x * n + y * d) * d' := fun x y => by
    calc (x * n' + y * d') * d = x * (n' * d) + y * d' * d := by ring
      _ = (x * n + y * d) * d' := by rw [heq]; ring
  rw [← Nat.mul_le_mul_right_iff hd, hscale, hscale, Nat.mul_le_mul_right_iff hd']

/-- The nearness of a quotient is that of its value. -/
theorem Near.of_mul_eq {n' d' : Nat} (h : m.Near n d) (hd : 0 < d) (hd' : 0 < d')
    (heq : n' * d = n * d') : m.Near n' d' := by
  have hle := le_iff_of_mul_eq hd hd' heq
  have hlower := hle 0 (4 * m.units) 4 (m.quartersBelow * 2 ^ m.exponent)
  have hupper := hle 4 0 0 (4 * m.units + 2 * 2 ^ m.exponent)
  have hlower' := hle 4 (m.quartersBelow * 2 ^ m.exponent) 0 (4 * m.units)
  have hupper' := hle 0 (4 * m.units + 2 * 2 ^ m.exponent) 4 0
  simp only [Nat.zero_mul, Nat.zero_add, Nat.add_zero] at hlower hupper hlower' hupper'
  refine ⟨hlower.mpr h.lower, hupper.mpr h.upper, h.ties.imp_right fun hstrict => ?_⟩
  exact ⟨(lt_iff_lt_of_le_iff_le hlower').mpr hstrict.1,
    (lt_iff_lt_of_le_iff_le hupper').mpr hstrict.2⟩

/-! ### Rounding what is near -/

/-- A quotient with the significand `q` at the exponent `e` is nearest to the magnitude that these
are packed to. -/
theorem nearest?_eq {q e : Nat} (hd : 0 < d) (hsize : n < 2 ^ 53 * (2 ^ e * d))
    (hfull : e = 0 ∨ 2 ^ 52 * (2 ^ e * d) ≤ n) (hround : roundHalfEven n (2 ^ e * d) = q)
    (normal : e = 0 ∨ 2 ^ 52 ≤ q) : nearest? n d = pack? q e normal := by
  have hexponent : exponentFor (n / d) = e := by
    refine exponentFor_eq ?_ (hfull.imp_right fun hfull => ?_)
    · rw [Nat.div_lt_iff_lt_mul hd, Nat.mul_assoc]
      exact hsize
    · rw [Nat.le_div_iff_mul_le hd, Nat.mul_assoc]
      exact hfull
  rw [Nat.mul_comm] at hround
  subst hexponent hround
  rfl

/-- Below a power of two, what is near has a significand of 53 ones at the exponent before, and is
rounded upward. -/
theorem nearest?_of_near_below (hd : 0 < d) (h : m.Near n d) (hm : m.significand = 2 ^ 52)
    (he : m.exponent ≠ 0) (hn : n < m.units * d) : nearest? n d = some m := by
  obtain ⟨f, hf⟩ := Nat.exists_eq_succ_of_ne_zero he
  have hlower := h.lower
  have hquarter : m.quartersBelow = 1 := if_pos ⟨hm, he⟩
  have hpow : 2 ^ (f + 1) * d = 2 * (2 ^ f * d) := by rw [Nat.pow_succ', Nat.mul_assoc]
  simp only [hquarter, units, hm, hf, Nat.mul_assoc, Nat.succ_eq_add_one, hpow] at hlower hn
  obtain ⟨s, e, hs, normal, hle⟩ := m
  obtain rfl : s = 2 ^ 52 := hm
  obtain rfl : e = f + 1 := hf
  generalize hstep : 2 ^ f * d = step at hlower hn
  have hround : roundHalfEven n (2 ^ f * d) = 2 ^ 53 := by
    refine roundHalfEven_eq (Nat.mul_pos (Nat.two_pow_pos f) hd) ?_ ?_ (.inl (by decide))
    · rw [hstep]
      omega
    · rw [hstep]
      omega
  rw [nearest?_eq hd (by rw [hstep]; omega) (.inr (by rw [hstep]; omega)) hround
    (.inr (by decide)), pack?, dif_neg (Nat.lt_irrefl _), dif_pos hle]

/-- **What is near to a magnitude rounds to it.** -/
theorem nearest?_of_near (hd : 0 < d) (h : m.Near n d) : nearest? n d = some m := by
  by_cases hbelow : (m.significand = 2 ^ 52 ∧ m.exponent ≠ 0) ∧ n < m.units * d
  · exact nearest?_of_near_below hd h hbelow.1.1 hbelow.1.2 hbelow.2
  · obtain ⟨hlower, hupper, hties⟩ := h
    have hquarters : m.quartersBelow * (2 ^ m.exponent * d) ≤ 2 * (2 ^ m.exponent * d) :=
      Nat.mul_le_mul_right _ m.quartersBelow_le
    simp only [units, Nat.mul_assoc, Nat.add_mul] at hbelow hlower hupper hties hquarters
    obtain ⟨s, e, hs, normal, hle⟩ := m
    dsimp only at *
    have hpos : 0 < 2 ^ e * d := Nat.mul_pos (Nat.two_pow_pos e) hd
    generalize quartersBelow _ * (2 ^ e * d) = below at hlower hties hquarters
    generalize hstep : 2 ^ e * d = step at *
    -- the significand is below `2 ^ 53`, and at least `2 ^ 52` if the exponent is not the least
    have hle53 : s * step ≤ (2 ^ 53 - 1) * step := Nat.mul_le_mul_right step (by omega)
    have hfull : e = 0 ∨ 2 ^ 52 * step ≤ n := by
      by_cases he : e = 0
      · exact .inl he
      · right
        obtain rfl | hs52 := Nat.eq_or_lt_of_le (normal.resolve_left he)
        · exact Nat.not_lt.mp fun hn => hbelow ⟨⟨rfl, he⟩, hn⟩
        · have hge : (2 ^ 52 + 1) * step ≤ s * step := Nat.mul_le_mul_right step hs52
          omega
    have hround : roundHalfEven n (2 ^ e * d) = s := by
      rw [hstep]
      refine roundHalfEven_eq hpos (by omega) (by omega) (hties.imp_right fun ht => ?_)
      omega
    rw [nearest?_eq hd (by rw [hstep]; omega) (by rw [hstep]; exact hfull) hround normal, pack?,
      dif_pos hs, dif_pos hle]

/-! ### Whole numbers of units -/

/-- What is near to a magnitude and has its power of two is the magnitude. -/
theorem Near.eq_of_dvd (h : m.Near n 1) (hdvd : 2 ^ m.exponent ∣ n) : n = m.units := by
  obtain ⟨q, rfl⟩ := hdvd
  have hlower := h.lower
  have hupper := h.upper
  have hquarters : m.quartersBelow * 2 ^ m.exponent ≤ 2 * 2 ^ m.exponent :=
    Nat.mul_le_mul_right _ m.quartersBelow_le
  have hpos := Nat.two_pow_pos m.exponent
  rw [units, Nat.mul_comm (m.significand)] at *
  generalize 2 ^ m.exponent = step at *
  -- both are multiples of one step, and less than a step apart
  have hq : q = m.significand := by
    refine Nat.le_antisymm (Nat.not_lt.mp fun hlt => ?_) (Nat.not_lt.mp fun hlt => ?_)
    · have hmul := Nat.mul_le_mul_left step hlt
      rw [Nat.mul_succ] at hmul
      omega
    · have hmul := Nat.mul_le_mul_left step hlt
      rw [Nat.mul_succ] at hmul
      omega
  rw [hq]

/-- What is near to a magnitude below a power of two is below it. -/
theorem Near.lt_two_pow {a : Nat} (h : m.Near n 1) (hm : m.units < 2 ^ a) : n < 2 ^ a := by
  have hupper := h.upper
  have hpos := Nat.two_pow_pos m.exponent
  have hle : m.exponent ≤ a := by
    refine Nat.not_lt.mp fun hlt => ?_
    obtain he | hs := m.normal
    · omega
    · have hpow : 2 ^ a ≤ 2 ^ m.exponent := Nat.pow_le_pow_right (by decide) (Nat.le_of_lt hlt)
      have hunits : 1 * 2 ^ m.exponent ≤ m.units := Nat.mul_le_mul_right _ (by omega)
      omega
  obtain ⟨k, hk⟩ := Nat.pow_dvd_pow 2 hle
  have hstep : m.units + 2 ^ m.exponent ≤ 2 ^ a := by
    rw [hk, units, Nat.mul_comm m.significand] at hm
    rw [hk, units, ← Nat.succ_mul, Nat.mul_comm]
    exact Nat.mul_le_mul_left _ (Nat.lt_of_mul_lt_mul_left hm)
  omega

end Magnitude

end Binary64

end Formula
