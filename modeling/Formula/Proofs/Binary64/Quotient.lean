import Formula.Proofs.Binary64.Widening

/-!
# Quotients of whole numbers

Rounding moves a quotient by at most half a step (`roundHalfEven_error`). The quotient of a whole
number of at most 53 bits by another one differs from every integer by more than that, unless it is
one, and then it is not rounded. So the rounded quotient compares with the integers as the exact one
does, and with the halves of integers if the dividend has a bit less
(`Binary64.exists_nearest_quotient`).

Nor does it matter that the divisor is rounded, which it is from `2 ^ 53` on: there both divisors
are beyond the dividend (`Binary64.WidensTo.compareAlike`).
-/

namespace Formula

/-- Rounding moves a quotient by at most one half. -/
theorem roundHalfEven_error (n : Nat) {d : Nat} (hd : 0 < d) :
    2 * n ≤ 2 * (roundHalfEven n d * d) + d ∧ 2 * (roundHalfEven n d * d) ≤ 2 * n + d := by
  have hdiv : n / d * d + n % d = n := Nat.div_add_mod' n d
  have hmod := Nat.mod_lt n hd
  rw [roundHalfEven]
  split
  · omega
  · split
    · rw [Nat.add_one_mul (n / d) d]
      omega
    · have hparity : n / d % 2 = 0 ∨ n / d % 2 = 1 := Nat.mod_two_eq_zero_or_one _
      obtain h | h := hparity <;> rw [h]
      · rw [Nat.add_zero]
        omega
      · rw [Nat.add_one_mul (n / d) d]
        omega

/-- The quotients `n / d` and `n' / d'` compare alike with every `t`-th part of an integer. -/
def CompareAlike (t n d n' d' : Nat) : Prop :=
  ∀ j, (j * d ≤ t * n ↔ j * d' ≤ t * n') ∧ (t * n ≤ j * d ↔ t * n' ≤ j * d')

theorem CompareAlike.trans {t n d n' d' n'' d'' : Nat} (h : CompareAlike t n d n' d')
    (h' : CompareAlike t n' d' n'' d'') : CompareAlike t n d n'' d'' :=
  fun j => ⟨(h j).1.trans (h' j).1, (h j).2.trans (h' j).2⟩

namespace Binary64

variable {a d e j k p t : Nat}

/-- A number of at most `2 ^ 53` times a power of two can be represented. -/
theorem representable_mul_two_pow (hj : j ≤ 2 ^ 53) (he : e < 2045) :
    Representable (j * 2 ^ e) := by
  obtain hlt | rfl := Nat.lt_or_eq_of_le hj
  · exact representable_of_dvd he.le (Nat.dvd_mul_left _ _)
      ((Nat.mul_lt_mul_right (Nat.two_pow_pos e)).mpr hlt)
  · have hpow : 2 ^ 53 * 2 ^ e = 2 ^ 52 * 2 ^ (e + 1) := by
      rw [Nat.pow_succ]
      omega
    rw [hpow]
    exact representable_of_dvd he (Nat.dvd_mul_left _ _)
      ((Nat.mul_lt_mul_right (Nat.two_pow_pos _)).mpr (by decide))

theorem representable_whole (hj : j ≤ 2 ^ 53) : Representable (j * unitsPerOne) := by
  obtain ⟨p, hp, hunits⟩ := exists_unitsPerOne_eq
  rw [hunits]
  exact representable_mul_two_pow hj (by omega)

/-- The powers of two reach further than the square of the units in one. -/
theorem Magnitude.units_lt_sq (m : Magnitude) : m.units < unitsPerOne * unitsPerOne := by
  obtain ⟨p, hp, hunits⟩ := exists_unitsPerOne_eq
  have hpow : 2 ^ 53 * 2 ^ m.exponent ≤ unitsPerOne * unitsPerOne := by
    rw [hunits, ← Nat.pow_add, ← Nat.pow_add]
    exact Nat.pow_le_pow_right (by decide) (by have := m.exponent_le; omega)
  exact m.units_lt_two_pow_mul.trans_le hpow

/-- The units in one, cut into one or two parts. -/
theorem exists_unitsPerOne_eq_mul (ht : t = 1 ∨ t = 2) :
    ∃ e, e < 2045 ∧ unitsPerOne = t * 2 ^ e := by
  obtain ⟨p, hp, hunits⟩ := exists_unitsPerOne_eq
  obtain rfl | rfl := ht
  · exact ⟨p, by omega, by rw [hunits, Nat.one_mul]⟩
  · obtain ⟨e, rfl⟩ : ∃ e, p = e + 1 := ⟨1073, hp⟩
    exact ⟨e, by omega, by rw [hunits, Nat.pow_succ']⟩

/-- A quotient that is a multiple of the part can be represented. -/
theorem nearest?_of_multiple (ht : t = 1 ∨ t = 2) (hd : 0 < d) (hj : j * d = t * a)
    (ha : t * a ≤ 2 ^ 53) :
    ∃ m, Magnitude.nearest? (a * unitsPerOne) d = some m ∧ t * m.units = j * unitsPerOne := by
  obtain ⟨e, he, hunits⟩ := exists_unitsPerOne_eq_mul ht
  have hle : j ≤ 2 ^ 53 := (Nat.le_mul_of_pos_right j hd).trans (hj ▸ ha)
  obtain ⟨m, hm⟩ := representable_mul_two_pow hle he
  have hquotient : a * unitsPerOne = m.units * d := by
    calc a * unitsPerOne = t * a * 2 ^ e := by rw [hunits]; ring
      _ = m.units * d := by rw [← hj, hm]; ring
  refine ⟨m, ?_, by rw [hm, hunits]; ring⟩
  rw [hquotient, ← Nat.one_mul d, ← Nat.mul_assoc, Nat.mul_one,
    Magnitude.nearest?_mul_right _ _ hd, Magnitude.nearest?_units]

/-- A quotient below `2 ^ 53` spacings needs no larger exponent. -/
private theorem exponentFor_le {q : Nat} (h : q < 2 ^ 53 * 2 ^ e) : exponentFor q ≤ e := by
  rw [exponentFor]
  by_cases hq : q = 0
  · rw [hq, Nat.log2_zero]
    omega
  · have hlog : q.log2 < 53 + e := by
      rw [Nat.log2_lt hq, Nat.pow_add]
      exact h
    omega

/-- What the quotient of a whole number is rounded to: a multiple of a step `2 ^ e`, of which the
quotient has `2 ^ 52` or more unless the step is the least. -/
theorem exists_nearest?_whole (ha : a ≤ 2 ^ 53) (hd : 0 < d) :
    ∃ m e, Magnitude.nearest? (a * unitsPerOne) d = some m ∧
      m.units = roundHalfEven (a * unitsPerOne) (d * 2 ^ e) * 2 ^ e ∧
      (e = 0 ∨ 2 ^ 52 * (d * 2 ^ e) ≤ a * unitsPerOne) := by
  obtain ⟨p, hp, hunits⟩ := exists_unitsPerOne_eq
  have hlt : a * unitsPerOne / d < 2 ^ 53 * 2 ^ (p + 1) := by
    refine (Nat.div_le_self _ _).trans_lt ?_
    rw [hunits]
    calc a * 2 ^ p ≤ 2 ^ 53 * 2 ^ p := Nat.mul_le_mul_right _ ha
      _ < 2 ^ 53 * 2 ^ (p + 1) :=
        (Nat.mul_lt_mul_left (by decide)).mpr (Nat.pow_lt_pow_right (by decide) p.lt_succ_self)
  have hexponent := exponentFor_le hlt
  obtain ⟨m, hm, hround⟩ := Magnitude.exists_nearest?_eq (hexponent.trans_lt (by omega))
  have hnormal := (significand_bounds (a * unitsPerOne / d)).2
  refine ⟨m, exponentFor (a * unitsPerOne / d), hm, hround, hnormal.imp_right fun hfull => ?_⟩
  rwa [Nat.div_div_eq_div_mul, Nat.le_div_iff_mul_le (Nat.mul_pos hd (Nat.two_pow_pos _))] at hfull

/-- The parts of the rounded quotient are less than one unit of the divisor away from those of the
dividend. Where the step would be large enough for more, the quotient is itself a multiple of the
step. -/
theorem gap_lt (ht : t = 1 ∨ t = 2) {A K P U R : Nat} (hA : t * A ≤ 2 ^ 53 * U)
    (hK : K = R * P) (herror : 2 * A ≤ 2 * K + P ∧ 2 * K ≤ 2 * A + P)
    (hP : P < U ∨ 2 ^ 52 * P ≤ A) (hU : 0 < U) (hexact : A = 2 ^ 52 * P → R = 2 ^ 52) :
    t * A < t * K + U ∧ t * K < t * A + U := by
  -- half a step reaches the next unit only if `A` is `2 ^ 52` steps, and then there is no error
  have hequal : A = 2 ^ 52 * P → K = A := fun h => by rw [hK, hexact h, h]
  obtain rfl | rfl := ht <;> constructor <;> by_contra hle <;> omega

/-- A multiple of the divisor below the parts of the dividend is below the rounded parts. -/
theorem lt_of_gap {A K U : Nat} (h : j * d < A) (hgap : A * U < t * (K * d) + U) :
    j * U < t * K := by
  have hstep : j * d * U + U ≤ A * U := by
    rw [← Nat.add_one_mul]
    exact Nat.mul_le_mul_right U h
  refine Nat.lt_of_mul_lt_mul_right (a := d) ?_
  calc j * U * d = j * d * U := by ring
    _ < t * (K * d) := by omega
    _ = t * K * d := by ring

/-- A multiple of the divisor above the parts of the dividend is above the rounded parts. -/
theorem gt_of_gap {A K U : Nat} (h : A < j * d) (hgap : t * (K * d) < A * U + U) :
    t * K < j * U := by
  have hstep : A * U + U ≤ j * d * U := by
    rw [← Nat.add_one_mul]
    exact Nat.mul_le_mul_right U h
  refine Nat.lt_of_mul_lt_mul_right (a := d) ?_
  calc t * K * d = t * (K * d) := by ring
    _ < j * d * U := by omega
    _ = j * U * d := by ring

/-- **The rounded quotient of whole numbers compares with the integers as the exact one does**, and
with the halves of integers if the dividend has a bit less than 53. -/
theorem exists_nearest_quotient (ht : t = 1 ∨ t = 2) (hd : 0 < d) (hd' : d < unitsPerOne)
    (ha : t * a ≤ 2 ^ 53) :
    ∃ m, Magnitude.nearest? (a * unitsPerOne) d = some m ∧
      CompareAlike t m.units unitsPerOne a d := by
  have ha' : a ≤ 2 ^ 53 := (Nat.le_mul_of_pos_left a (by omega)).trans ha
  obtain ⟨m, e, hm, hunits, hstep⟩ := exists_nearest?_whole ha' hd
  have hP : 0 < d * 2 ^ e := Nat.mul_pos hd (Nat.two_pow_pos e)
  have hscaled : m.units * d = roundHalfEven (a * unitsPerOne) (d * 2 ^ e) * (d * 2 ^ e) := by
    rw [hunits]
    ring
  have hA : t * (a * unitsPerOne) ≤ 2 ^ 53 * unitsPerOne := by
    rw [← Nat.mul_assoc]
    exact Nat.mul_le_mul_right _ ha
  have herror := roundHalfEven_error (a * unitsPerOne) hP
  rw [← hscaled] at herror
  have hsmall : d * 2 ^ e < unitsPerOne ∨ 2 ^ 52 * (d * 2 ^ e) ≤ a * unitsPerOne := by
    refine hstep.imp_left fun he => ?_
    simpa only [he, Nat.pow_zero, Nat.mul_one] using hd'
  have hexact : a * unitsPerOne = 2 ^ 52 * (d * 2 ^ e) →
      roundHalfEven (a * unitsPerOne) (d * 2 ^ e) = 2 ^ 52 := by
    intro h
    rw [h, roundHalfEven_mul _ hP]
  obtain ⟨hbelow, habove⟩ := gap_lt ht hA hscaled herror hsmall unitsPerOne_pos hexact
  have hassoc : t * (a * unitsPerOne) = t * a * unitsPerOne := (Nat.mul_assoc t a _).symm
  rw [hassoc] at hbelow habove
  refine ⟨m, hm, fun j => ?_⟩
  -- the error is less than the distance to any multiple of the divisor, unless the distance is zero
  obtain hlt | heq | hgt := Nat.lt_trichotomy (j * d) (t * a)
  · have hgap := lt_of_gap hlt hbelow
    exact ⟨iff_of_true hgap.le hlt.le, iff_of_false hgap.not_ge hlt.not_ge⟩
  · obtain ⟨m', hm', heq'⟩ := nearest?_of_multiple ht hd heq ha
    obtain rfl : m = m' := Option.some.inj (hm.symm.trans hm')
    rw [heq', heq]
    exact ⟨iff_of_true le_rfl le_rfl, iff_of_true le_rfl le_rfl⟩
  · have hgap := gt_of_gap hgt habove
    exact ⟨iff_of_false hgap.not_ge hgt.not_ge, iff_of_true hgap.le hgt.le⟩

/-! ### Widened divisors -/

/-- The whole number `k` is widened to the whole number `d`. -/
structure WidensTo (k d : Nat) : Prop where
  nearest : ∃ m, Magnitude.nearest? (k * unitsPerOne) 1 = some m ∧ m.units = d * unitsPerOne
  pos : 0 < d
  lt : d < unitsPerOne
  small : k < 2 ^ 53 → d = k
  large : 2 ^ 53 ≤ k → 2 ^ 53 ≤ d

/-- A rounded quotient is finite if it has a nearest magnitude. -/
theorem exists_nearest?_of_scaled? {s : Bool} {n : Nat} {X : Int}
    (h : (nearest s n d).scaled? = some X) :
    ∃ m, Magnitude.nearest? n d = some m ∧ signed s m.units = X := by
  unfold nearest at h
  split at h
  · next m hm => exact ⟨m, hm, Option.some.inj h⟩
  · exact absurd h (Option.some_ne_none X).symm

/-- Each positive integer below `2 ^ 64` is widened to a whole number. -/
theorem exists_widensTo (hk : 0 < k) (hk' : k < 2 ^ 64) : ∃ d, WidensTo k d := by
  obtain ⟨d, hd, hsmall, hlarge⟩ := exists_ofNat_eq hk' false
  obtain ⟨m, hm, hunits⟩ := exists_nearest?_of_scaled? hd
  rw [signed_false, signed_false, Int.natCast_inj] at hunits
  have hsq := m.units_lt_sq
  rw [hunits] at hsq
  refine ⟨d, ⟨m, hm, hunits⟩, ?_, Nat.lt_of_mul_lt_mul_right hsq, hsmall, fun h => (hlarge h).2⟩
  obtain h | h := Nat.lt_or_ge k (2 ^ 53)
  · exact hsmall h ▸ hk
  · exact (Nat.two_pow_pos 53).trans_le (hlarge h).2

theorem WidensTo.scaled?_ofNat (h : WidensTo k d) (s : Bool) :
    (ofNat s k).scaled? = some (signed s (d * unitsPerOne)) := by
  obtain ⟨m, hm, hunits⟩ := h.nearest
  rw [ofNat, nearest_of_nearest? hm, scaled?, hunits]

/-- **A rounded divisor compares with a small dividend as the divisor does.** -/
theorem WidensTo.compareAlike (h : WidensTo k d) (ha : t * a < 2 ^ 53) :
    CompareAlike t a d a k := by
  obtain hk | hk := Nat.lt_or_ge k (2 ^ 53)
  · rw [h.small hk]
    exact fun j => ⟨Iff.rfl, Iff.rfl⟩
  · intro j
    -- both divisors are beyond the parts of the dividend, and so are their multiples
    have hbeyond : ∀ d', 2 ^ 53 ≤ d' → 0 < j → t * a < j * d' :=
      fun d' hd' hj => ha.trans_le (hd'.trans (Nat.le_mul_of_pos_left d' hj))
    obtain rfl | hj := j.eq_zero_or_pos
    · rw [Nat.zero_mul, Nat.zero_mul]
      exact ⟨Iff.rfl, Iff.rfl⟩
    · have hd' := hbeyond d (h.large hk) hj
      have hk' := hbeyond k hk hj
      exact ⟨iff_of_false hd'.not_ge hk'.not_ge, iff_of_true hd'.le hk'.le⟩

end Binary64

end Formula
