import Formula.Binary64.Integral
import Formula.Decimal.Shortest
import Formula.Proofs.Binary64.Near
import Formula.Proofs.Decimal.Digits
import Mathlib.Tactic.Linarith

/-!
# The shortest decimal reads back

The shortest decimal of a magnitude lies in the interval of what rounds to the magnitude
(`Binary64.Magnitude.near_shortest`), so that it is rounded to it again
(`Binary64.Magnitude.toBinary64_shortest`).

A magnitude is integral exactly if its shortest decimal has no places behind the point
(`Binary64.Magnitude.exponent_shortest_nonneg_iff`): the grid of whole numbers holds the magnitude
itself if it is integral, and no other number that is near enough if it is not. The shortest decimal
of an integral magnitude may be another whole number, but not of one below `2 ^ 54 + 8`
(`Binary64.Magnitude.whole_shortest_of_lt`).
-/

namespace Formula

open Decimal (finestPlaces)

namespace RoundingInterval

variable {i : RoundingInterval} {length : Nat}

/-- The search ends in the interval, or on the finest grid at the length itself. -/
theorem contains_coarsestPoint (i : RoundingInterval) (length grid : Nat) :
    i.contains ((i.coarsestPoint length grid).1 * 10 ^ (i.coarsestPoint length grid).2) = true ∨
      i.coarsestPoint length grid = (length, 0) := by
  induction grid with
  | zero => exact .inr rfl
  | succ grid ih =>
    rw [coarsestPoint]
    split
    · next habove =>
      split
      · next hbelow => exact .inl hbelow.1
      · exact .inl habove
    · split
      · next hbelow => exact .inl hbelow
      · exact ih

/-- If the length itself is a point of a grid, then the search ends there or on a coarser grid. -/
theorem coarsestPoint_of_dvd {k grid : Nat} (hk : k ≤ grid) (hdvd : 10 ^ k ∣ length)
    (h : i.contains length = true) :
    i.coarsestPoint length grid = (length / 10 ^ k, k) ∨
      k < (i.coarsestPoint length grid).2 := by
  induction grid with
  | zero =>
    obtain rfl : k = 0 := Nat.le_zero.mp hk
    exact .inl (by simp [coarsestPoint])
  | succ grid ih =>
    rw [coarsestPoint]
    obtain hlt | rfl := Nat.lt_or_eq_of_le hk
    · split
      · split
        · exact .inr hlt
        · exact .inr hlt
      · split
        · exact .inr hlt
        · exact ih (Nat.le_of_lt_succ hlt)
    · -- the lower neighbour on this grid is the length
      have hmul : length / 10 ^ (grid + 1) * 10 ^ (grid + 1) = length := Nat.div_mul_cancel hdvd
      have hmod : length % 10 ^ (grid + 1) = 0 := Nat.mod_eq_zero_of_dvd hdvd
      have hpos : 0 < 10 ^ (grid + 1) := Nat.pow_pos (by decide)
      rw [hmul, hmod, Nat.mul_zero]
      split
      · exact .inl (if_pos ⟨h, hpos⟩)
      · exact .inl rfl

end RoundingInterval

namespace Binary64.Magnitude

variable {m : Magnitude}

private theorem two_pow_le_units (hm : m.units ≠ 0) : 2 ^ m.exponent ≤ m.units :=
  Nat.le_mul_of_pos_left _ (Nat.pos_of_ne_zero (mt m.units_eq_zero_iff.mpr hm))

/-- The ends of the interval in steps of the magnitude. -/
theorem roundingInterval_eq (m : Magnitude) : m.roundingInterval =
    { lower := 4 * m.units * 5 ^ finestPlaces -
        m.quartersBelow * 2 ^ m.exponent * 5 ^ finestPlaces
      upper := (4 * m.units + 2 * 2 ^ m.exponent) * 5 ^ finestPlaces
      closed := m.significand % 2 == 0 } := by
  have hupper : 4 * (m.units * 5 ^ finestPlaces) + 2 * (2 ^ m.exponent * 5 ^ finestPlaces) =
      (4 * m.units + 2 * 2 ^ m.exponent) * 5 ^ finestPlaces := by ring
  rw [roundingInterval, quartersBelow, decimalLength, hupper, Nat.mul_assoc 4]
  split <;> simp only [Nat.one_mul, Nat.mul_assoc]

/-- The interval holds what is near to the magnitude. -/
theorem near_of_contains {length : Nat} (h : m.roundingInterval.contains length = true) :
    m.Near length (5 ^ finestPlaces) := by
  rw [roundingInterval_eq, RoundingInterval.contains] at h
  dsimp only at h
  split at h
  · next heven =>
    obtain ⟨hlower, hupper⟩ := of_decide_eq_true h
    exact ⟨by omega, hupper, .inl (by simpa using heven)⟩
  · obtain ⟨hlower, hupper⟩ := of_decide_eq_true h
    exact ⟨by omega, by omega, .inr ⟨by omega, hupper⟩⟩

/-- It holds the magnitude itself. -/
theorem contains_decimalLength (hm : m.units ≠ 0) :
    m.roundingInterval.contains m.decimalLength = true := by
  have hlength : 4 * m.units * 5 ^ finestPlaces = 4 * m.decimalLength := by
    rw [decimalLength, Nat.mul_assoc]
  have hunits : 0 < m.decimalLength :=
    Nat.mul_pos (Nat.pos_of_ne_zero hm) (Nat.pow_pos (by decide))
  have hbelow : 0 < m.quartersBelow * 2 ^ m.exponent * 5 ^ finestPlaces := by
    refine Nat.mul_pos (Nat.mul_pos ?_ (Nat.two_pow_pos _)) (Nat.pow_pos (by decide))
    rw [quartersBelow]
    split <;> decide
  have habove : 0 < 2 * 2 ^ m.exponent * 5 ^ finestPlaces :=
    Nat.mul_pos (Nat.mul_pos (by decide) (Nat.two_pow_pos _)) (Nat.pow_pos (by decide))
  rw [roundingInterval_eq, RoundingInterval.contains, Nat.add_mul, hlength]
  dsimp only
  split
  · exact decide_eq_true ⟨by omega, by omega⟩
  · exact decide_eq_true ⟨by omega, by omega⟩

/-- The grid that the search begins with is coarser than any grid of which the length is a point. -/
theorem le_coarseGrid {length : Nat} (h : 10 ^ finestPlaces ≤ length) :
    finestPlaces ≤ coarseGrid length := by
  obtain ⟨k, hk, hpow⟩ : ∃ k, 3564 ≤ k ∧ 2 ^ k ≤ 10 ^ finestPlaces :=
    ⟨3564, Nat.le_refl _, by decide +kernel⟩
  have hlength : length ≠ 0 := by
    have hpos : 0 < 10 ^ finestPlaces := Nat.pow_pos (by decide)
    omega
  have hlog : k ≤ length.log2 := (Nat.le_log2 hlength).mpr (Nat.le_trans hpow h)
  rw [coarseGrid, finestPlaces]
  omega

/-! ### The point that is found -/

/-- A decimal with all places of a number is near to it. -/
private theorem near_point (hm : m.units ≠ 0) :
    m.Near (m.point.1 * 10 ^ m.point.2) (5 ^ finestPlaces) := by
  have h := m.roundingInterval.contains_coarsestPoint m.decimalLength (coarseGrid m.decimalLength)
  rw [← point] at h
  obtain h | h := h
  · exact near_of_contains h
  · rw [h, Nat.pow_zero, Nat.mul_one]
    exact near_of_contains (contains_decimalLength hm)

/-- What is near to a magnitude is at least half of it and at most twice as much. -/
theorem Near.bounds {n d : Nat} (hm : m.units ≠ 0) (h : m.Near n d) :
    m.units * d ≤ 2 * n ∧ n ≤ 2 * (m.units * d) := by
  have hlower := h.lower
  have hupper := h.upper
  have hquarters : m.quartersBelow * 2 ^ m.exponent * d ≤ 2 * (m.units * d) := by
    rw [← Nat.mul_assoc]
    exact Nat.mul_le_mul_right d (Nat.mul_le_mul m.quartersBelow_le (two_pow_le_units hm))
  have hstep : 2 ^ m.exponent * d ≤ m.units * d := Nat.mul_le_mul_right d (two_pow_le_units hm)
  rw [Nat.add_mul, Nat.mul_assoc, Nat.mul_assoc] at hupper
  rw [Nat.mul_assoc] at hlower
  omega

private theorem unitsPerOne_mul : unitsPerOne * 5 ^ finestPlaces = 10 ^ finestPlaces := by
  have hpow : ∀ n : Nat, 2 ^ n * 5 ^ n = 10 ^ n := fun n => (Nat.mul_pow 2 5 n).symm
  rw [← hpow, unitsPerOne, finestPlaces]

/-- A point of a grid is the same number as a decimal. -/
theorem Near.ofPoint {p : Nat × Nat} (h : m.Near (p.1 * 10 ^ p.2) (5 ^ finestPlaces)) :
    m.Near ((Decimal.ofPoint p).coefficient * 10 ^ (Decimal.ofPoint p).exponent.toNat * unitsPerOne)
      (10 ^ (-(Decimal.ofPoint p).exponent).toNat) := by
  have hplaces : ∀ k : Nat, ((p.2 : Int) - k).toNat + k = p.2 + (-((p.2 : Int) - k)).toNat := by
    omega
  refine h.of_mul_eq (Nat.pow_pos (by decide)) (Nat.pow_pos (by decide)) ?_
  rw [Decimal.ofPoint, Nat.mul_assoc, unitsPerOne_mul, Nat.mul_assoc, ← Nat.pow_add, hplaces,
    Nat.pow_add, Nat.mul_assoc]

/-- The shortest decimal is near to the magnitude. -/
theorem near_shortest (hm : m.units ≠ 0) :
    m.Near (m.shortest.coefficient * 10 ^ m.shortest.exponent.toNat * unitsPerOne)
      (10 ^ (-m.shortest.exponent).toNat) :=
  (near_point hm).ofPoint

/-! ### Rounding the shortest decimal -/

private theorem units_lt (m : Magnitude) {k : Nat} (hk : 2045 ≤ k) : m.units < 2 ^ 53 * 2 ^ k := by
  have hle : 2 ^ m.exponent ≤ 2 ^ k :=
    Nat.pow_le_pow_right (by decide) (Nat.le_trans m.exponent_le hk)
  exact Nat.mul_lt_mul_of_lt_of_le m.significand_lt hle (Nat.two_pow_pos _)

private theorem coefficient_ne_zero {p : Nat × Nat} (hm : m.units ≠ 0)
    (h : m.Near (p.1 * 10 ^ p.2) (5 ^ finestPlaces)) : p.1 ≠ 0 := by
  intro hp
  have hpos : 0 < m.units * 5 ^ finestPlaces :=
    Nat.mul_pos (Nat.pos_of_ne_zero hm) (Nat.pow_pos (by decide))
  have hle := (h.bounds hm).1
  rw [hp, Nat.zero_mul] at hle
  omega

/-- A decimal that is near to a magnitude is of a size for which it is not taken for zero or for
infinite. -/
theorem size_of_near {p : Nat × Nat} (hm : m.units ≠ 0)
    (h : m.Near (p.1 * 10 ^ p.2) (5 ^ finestPlaces)) :
    674 ≤ Numeral.digitCount p.1 + p.2 ∧ Numeral.digitCount p.1 + p.2 ≤ 1474 := by
  obtain ⟨hle, hge⟩ := h.bounds hm
  obtain ⟨low, hlow, hlowpow⟩ : ∃ low, low = 673 ∧ 2 * 10 ^ low ≤ 5 ^ finestPlaces :=
    ⟨673, rfl, by decide +kernel⟩
  obtain ⟨high, k, hhigh, hk, hhighpow⟩ : ∃ high k, high = 1474 ∧ 2045 ≤ k ∧
      2 * (2 ^ 53 * 2 ^ k * 5 ^ finestPlaces) < 10 ^ high :=
    ⟨1474, 2045, rfl, Nat.le_refl _, by decide +kernel⟩
  constructor
  · -- a decimal of fewer digits is below half of one unit
    by_contra hsize
    have hlt : p.1 * 10 ^ p.2 < 10 ^ low := by
      refine Nat.lt_of_lt_of_le (Nat.mul_lt_mul_of_pos_right
        (Numeral.lt_ten_pow_digitCount p.1) (Nat.pow_pos (by decide))) ?_
      rw [← Nat.pow_add]
      exact Nat.pow_le_pow_right (by decide) (by omega)
    have hunits : 5 ^ finestPlaces ≤ m.units * 5 ^ finestPlaces :=
      Nat.le_mul_of_pos_left _ (Nat.pos_of_ne_zero hm)
    omega
  · -- one of more digits is more than twice the largest magnitude
    by_contra hsize
    have hgt : 10 ^ high ≤ p.1 * 10 ^ p.2 := by
      have hpos := Numeral.digitCount_pos p.1
      refine Nat.le_trans ?_ (Nat.mul_le_mul_right _
        (Numeral.ten_pow_le (coefficient_ne_zero hm h)))
      rw [← Nat.pow_add]
      exact Nat.pow_le_pow_right (by decide) (by omega)
    have hunits : m.units * 5 ^ finestPlaces ≤ 2 ^ 53 * 2 ^ k * 5 ^ finestPlaces :=
      Nat.mul_le_mul_right _ (Nat.le_of_lt (m.units_lt hk))
    omega

/-- A decimal near to a magnitude is read as it. -/
private theorem toBinary64_ofPoint {p : Nat × Nat} (hm : m.units ≠ 0)
    (h : m.Near (p.1 * 10 ^ p.2) (5 ^ finestPlaces)) :
    (Decimal.ofPoint p).toBinary64 = .finite false m := by
  obtain ⟨hlow, hhigh⟩ := size_of_near hm h
  have hlow' : ¬(Decimal.ofPoint p).exponent + Numeral.digitCount (Decimal.ofPoint p).coefficient <
      -Decimal.magnitudeLimit := by
    simp only [Decimal.ofPoint, finestPlaces, Decimal.magnitudeLimit]
    omega
  have hhigh' : ¬Decimal.magnitudeLimit <
      (Decimal.ofPoint p).exponent + Numeral.digitCount (Decimal.ofPoint p).coefficient := by
    simp only [Decimal.ofPoint, finestPlaces, Decimal.magnitudeLimit]
    omega
  have hzero : ¬((Decimal.ofPoint p).coefficient = 0 ∨ (Decimal.ofPoint p).exponent +
      Numeral.digitCount (Decimal.ofPoint p).coefficient < -Decimal.magnitudeLimit) :=
    fun hor => hor.elim (coefficient_ne_zero hm h) hlow'
  rw [Decimal.toBinary64, if_neg hzero, if_neg hhigh']
  exact nearest_of_nearest? (nearest?_of_near (Nat.pow_pos (by decide)) h.ofPoint)

/-- **The shortest decimal of a magnitude is rounded to it.** -/
theorem toBinary64_shortest (hm : m.units ≠ 0) : m.shortest.toBinary64 = .finite false m :=
  toBinary64_ofPoint hm (near_point hm)

/-! ### Whole numbers -/

/-- A decimal is a whole number if its power of ten makes up for the places of a unit. -/
private theorem exponent_ofPoint_nonneg_iff (p : Nat × Nat) :
    0 ≤ (Decimal.ofPoint p).exponent ↔ finestPlaces ≤ p.2 := by
  rw [Decimal.ofPoint]
  dsimp only
  omega

/-- A shortest decimal that is a whole number is near to the magnitude as such. -/
theorem near_whole_shortest (hm : m.units ≠ 0) (h : 0 ≤ m.shortest.exponent) :
    m.Near (m.shortest.whole * unitsPerOne) 1 := by
  have hplaces : (-m.shortest.exponent).toNat = 0 := by
    generalize m.shortest.exponent = e at h
    omega
  have hnear := near_shortest hm
  rw [hplaces, Nat.pow_zero] at hnear
  exact hnear

theorem whole_shortest_ne_zero (hm : m.units ≠ 0) (h : 0 ≤ m.shortest.exponent) :
    m.shortest.whole ≠ 0 := by
  intro hzero
  have hle := ((near_whole_shortest hm h).bounds hm).1
  rw [hzero, Nat.zero_mul, Nat.mul_one] at hle
  exact hm (Nat.le_zero.mp hle)

private theorem unitsPerOne_eq : unitsPerOne = 2 ^ finestPlaces := by
  rw [unitsPerOne, finestPlaces]

private theorem two_pow_mul_unitsPerOne (k : Nat) :
    2 ^ k * unitsPerOne = 2 ^ (k + finestPlaces) := by
  rw [unitsPerOne_eq, Nat.pow_add]

/-- The number nearest to a shortest decimal that is a whole number. -/
theorem ofNat_whole_shortest (hm : m.units ≠ 0) (h : 0 ≤ m.shortest.exponent) (negative : Bool) :
    ofNat negative m.shortest.whole = .finite negative m :=
  nearest_of_nearest? (nearest?_of_near Nat.one_pos (near_whole_shortest hm h))

/-- An integral magnitude is a point of the grid of whole numbers, and the search ends there or
before. -/
theorem point_of_dvd (hm : m.units ≠ 0) (hdvd : unitsPerOne ∣ m.units) :
    m.point = (m.units / unitsPerOne, finestPlaces) ∨ finestPlaces < m.point.2 := by
  have hpos : 0 < 10 ^ finestPlaces := Nat.pow_pos (by decide)
  have hlength : m.decimalLength = m.units / unitsPerOne * 10 ^ finestPlaces := by
    rw [← unitsPerOne_mul, ← Nat.mul_assoc, Nat.div_mul_cancel hdvd, decimalLength]
  have hle : 10 ^ finestPlaces ≤ m.decimalLength := by
    rw [hlength]
    refine Nat.le_mul_of_pos_left _ (Nat.pos_of_ne_zero fun hzero => hm ?_)
    rw [← Nat.div_mul_cancel hdvd, hzero, Nat.zero_mul]
  have hcoarsest := RoundingInterval.coarsestPoint_of_dvd (le_coarseGrid hle)
    (hlength ▸ Nat.dvd_mul_left _ _) (contains_decimalLength hm)
  rw [← point] at hcoarsest
  rwa [hlength, Nat.mul_div_cancel _ hpos] at hcoarsest

/-- **The shortest decimal has no places behind the point exactly if the magnitude is
integral.** -/
theorem exponent_shortest_nonneg_iff (hm : m.units ≠ 0) :
    0 ≤ m.shortest.exponent ↔ unitsPerOne ∣ m.units := by
  constructor
  · intro h
    obtain hlt | hle := Nat.lt_or_ge m.exponent finestPlaces
    case inr =>
      rw [unitsPerOne_eq, units]
      exact Nat.dvd_mul_left_of_dvd (Nat.pow_dvd_pow 2 hle) _
    case inl =>
      -- no whole number but the magnitude itself is so near
      have hdvd : 2 ^ m.exponent ∣ m.shortest.whole * unitsPerOne := by
        rw [unitsPerOne_eq]
        exact Nat.dvd_mul_left_of_dvd (Nat.pow_dvd_pow 2 (Nat.le_of_lt hlt)) _
      rw [← (near_whole_shortest hm h).eq_of_dvd hdvd]
      exact Nat.dvd_mul_left _ _
  · intro hdvd
    have hpoint := point_of_dvd hm hdvd
    rw [shortest, exponent_ofPoint_nonneg_iff]
    obtain h | h := hpoint
    · rw [h]
    · exact Nat.le_of_lt h

/-- A point of a grid that is coarser than that of whole numbers is a multiple of ten. -/
theorem ten_dvd_whole_ofPoint {p : Nat × Nat} (hp : finestPlaces < p.2) :
    10 ∣ (Decimal.ofPoint p).whole := by
  have hexponent : ((p.2 : Int) - finestPlaces).toNat ≠ 0 := by omega
  exact Nat.dvd_mul_left_of_dvd (dvd_pow_self 10 hexponent) _

/-- The magnitude below a power of two as a number of units. -/
theorem units_lt_two_pow {k : Nat} (h : m.truncated < 2 ^ k) :
    m.units < 2 ^ (k + finestPlaces) := by
  rwa [truncated, Nat.div_lt_iff_lt_mul unitsPerOne_pos, two_pow_mul_unitsPerOne] at h

/-- The shortest decimal of an integral magnitude is below a power of two if the magnitude is. -/
theorem whole_shortest_lt {k : Nat} (hm : m.units ≠ 0) (h : 0 ≤ m.shortest.exponent)
    (hlt : m.truncated < 2 ^ k) : m.shortest.whole < 2 ^ k := by
  have hwhole := (near_whole_shortest hm h).lt_two_pow (units_lt_two_pow hlt)
  rw [unitsPerOne_eq, Nat.pow_add] at hwhole
  exact Nat.lt_of_mul_lt_mul_right hwhole

/-- A magnitude below a power of two has its 53 bits below it. -/
theorem exponent_le_of_lt {k : Nat} (h : m.truncated < 2 ^ k) :
    m.exponent + 53 ≤ k + finestPlaces ∨ m.exponent = 0 := by
  obtain he | hs := m.normal
  · exact .inr he
  · have hunits : 2 ^ 52 * 2 ^ m.exponent ≤ m.units := Nat.mul_le_mul_right _ hs
    rw [← Nat.pow_add] at hunits
    have hlt := (Nat.pow_lt_pow_iff_right (by decide)).mp
      (Nat.lt_of_le_of_lt hunits (units_lt_two_pow h))
    exact .inl (by omega)

/-- Where the magnitudes are four apart, no multiple of ten is near to the first two of them. -/
theorem Near.not_ten_dvd {w k : Nat} (h : m.Near (w * 2 ^ k) 1) (he : m.exponent = k + 2)
    (hs : m.significand = 2 ^ 52 ∨ m.significand = 2 ^ 52 + 1) : ¬10 ∣ w := by
  rintro ⟨q, rfl⟩
  obtain ⟨hlower, hupper, hties⟩ := h
  have hpos : 0 < 2 ^ k := Nat.two_pow_pos k
  rw [units, he, Nat.pow_add] at hlower hupper hties
  generalize 2 ^ k = step at *
  obtain hs | hs := hs
  · -- at the power of two the one below is only two apart
    have hquarters : m.quartersBelow = 1 := if_pos ⟨hs, by omega⟩
    rw [hs, hquarters] at hlower
    rw [hs] at hupper
    have hlower' : 16 * 2 ^ 52 ≤ 40 * q + 4 := Nat.le_of_mul_le_mul_right (by linarith) hpos
    have hupper' : 40 * q ≤ 16 * 2 ^ 52 + 8 := Nat.le_of_mul_le_mul_right (by linarith) hpos
    omega
  · have hquarters : m.quartersBelow = 2 := if_neg (by omega)
    obtain ⟨hlower, hupper⟩ := hties.resolve_left (by omega)
    rw [hs, hquarters] at hlower
    rw [hs] at hupper
    have hlower' : 16 * (2 ^ 52 + 1) < 40 * q + 8 :=
      Nat.lt_of_mul_lt_mul_right (a := step) (by linarith)
    have hupper' : 40 * q < 16 * (2 ^ 52 + 1) + 8 :=
      Nat.lt_of_mul_lt_mul_right (a := step) (by linarith)
    omega

/-- **The shortest decimal of an integral magnitude below `2 ^ 54 + 8` is the magnitude.** Up to
`2 ^ 54` the magnitudes are at most two apart, so that no other even number is so near. -/
theorem whole_shortest_of_lt (hm : m.units ≠ 0) (hdvd : unitsPerOne ∣ m.units)
    (hlt : m.truncated < 2 ^ 54 + 8) : m.shortest.whole = m.truncated := by
  have hpos := unitsPerOne_pos
  have hnonneg := (exponent_shortest_nonneg_iff hm).mpr hdvd
  have hunits : m.truncated * unitsPerOne = m.units := Nat.div_mul_cancel hdvd
  obtain h | h := point_of_dvd hm hdvd
  · have hexponent : ((finestPlaces : Int) - finestPlaces).toNat = 0 := by omega
    rw [shortest, h, Decimal.whole, Decimal.ofPoint, truncated]
    simp only [hexponent, Nat.pow_zero, Nat.mul_one]
  · have hten : 10 ∣ m.shortest.whole := ten_dvd_whole_ofPoint h
    have hnear := near_whole_shortest hm hnonneg
    have hexponent : m.exponent ≤ 2 + finestPlaces := by
      have hle := exponent_le_of_lt (Nat.lt_trans hlt (by decide : 2 ^ 54 + 8 < 2 ^ 55))
      omega
    obtain he | he := Nat.lt_or_eq_of_le hexponent
    · -- the magnitudes are at most two apart
      have hstep : 2 ^ m.exponent ∣ m.shortest.whole * unitsPerOne := by
        have hle : m.exponent ≤ 1 + finestPlaces := by omega
        refine Nat.dvd_trans (Nat.pow_dvd_pow 2 hle) ?_
        rw [← two_pow_mul_unitsPerOne 1, Nat.pow_one]
        exact Nat.mul_dvd_mul_right (Nat.dvd_trans (by decide) hten) _
      exact Nat.eq_of_mul_eq_mul_right hpos ((hnear.eq_of_dvd hstep).trans hunits.symm)
    · refine absurd hten ?_
      have hfour : m.truncated = m.significand * 2 ^ 2 := by
        refine Nat.eq_of_mul_eq_mul_right hpos (hunits.trans ?_)
        rw [units, he, ← two_pow_mul_unitsPerOne 2, Nat.mul_assoc]
      have hfull := m.normal
      rw [unitsPerOne_eq] at hnear
      exact hnear.not_ten_dvd (he.trans (Nat.add_comm _ _)) (by omega)

end Binary64.Magnitude

end Formula
