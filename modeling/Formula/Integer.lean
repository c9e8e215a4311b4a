import Formula.Instances

/-!
# Integers of sixty-four bits

The exact passage between unbounded integers and those of sixty-four bits, and the remainder
of the division to the nearest integer. An operation on integers computes its exact result
without bounds and asks `Integer.ofInt?` whether it fits.
-/

namespace Formula.Integer

/-- Does the integer have at most sixty-four bits? -/
def Fits (z : Int) : Prop := -2 ^ 63 ≤ z ∧ z < 2 ^ 63

instance (z : Int) : Decidable (Fits z) := inferInstanceAs (Decidable (_ ∧ _))

/-- The integer of sixty-four bits with the given value, if there is one. -/
def ofInt? (z : Int) : Option Int64 :=
  if Fits z then some (Int64.ofInt z) else none

/-- The integer of sixty-four bits that is nearest to the given one. -/
def clamp (z : Int) : Int64 := Int64.ofInt (max (-2 ^ 63) (min z (2 ^ 63 - 1)))

/-- The integer as an unsigned one of thirty-two bits, if it is one. -/
def toUInt32? (n : Int64) : Option UInt32 :=
  if 0 ≤ n.toInt ∧ n.toInt < 2 ^ 32 then some (UInt32.ofNat n.toInt.toNat) else none

/-- The remainder of the division of `a` by `b` to the nearest integer, to the even one of
two: the remainder of the truncated division, less the divisor if that brings it closer to
zero, or no farther while the truncated quotient is odd. -/
def nearestRemainder (a b : Int) : Int :=
  let rest := a.tmod b
  let twice := 2 * rest.natAbs
  if b.natAbs < twice ∨ twice = b.natAbs ∧ a.tdiv b % 2 ≠ 0 then rest - b.natAbs * rest.sign
  else rest

theorem fits_toInt (n : Int64) : Fits n.toInt := ⟨Int64.le_toInt n, Int64.toInt_lt n⟩

theorem fits_of_natAbs_lt {z : Int} (h : z.natAbs < 2 ^ 63) : Fits z := by
  rw [Fits]
  omega

theorem natAbs_toInt_le (n : Int64) : n.toInt.natAbs ≤ 2 ^ 63 := by
  have hfits := fits_toInt n
  rw [Fits] at hfits
  omega

theorem toInt_ne_of_ne {n m : Int64} (h : n ≠ m) : n.toInt ≠ m.toInt :=
  fun heq => h (Int64.toInt_inj.mp heq)

theorem toInt_ne_zero {n : Int64} (h : n ≠ 0) : n.toInt ≠ 0 := toInt_ne_of_ne h

theorem ne_zero_of_toInt_neg {n : Int64} (h : n.toInt < 0) : n ≠ 0 := by
  rintro rfl
  exact absurd h (by decide)

/-- Only the least integer is as far from zero as `2 ^ 63`. -/
theorem natAbs_toInt_lt {n : Int64} (h : n ≠ Int64.minValue) : n.toInt.natAbs < 2 ^ 63 := by
  have hlt := Int64.toInt_lt n
  have hle := natAbs_toInt_le n
  have hne : n.toInt ≠ -2 ^ 63 := toInt_ne_of_ne h
  omega

/-- The integer of sixty-four bits that an integer is made to has its value. -/
theorem toInt_of_ofInt? {z : Int} {n : Int64} (h : ofInt? z = some n) : n.toInt = z := by
  unfold ofInt? at h
  split at h
  · rename_i fits
    obtain rfl := Option.some.inj h
    exact Int64.toInt_ofInt_of_le fits.1 fits.2
  · contradiction

/-- Each integer of sixty-four bits is made from its own value. -/
@[simp]
theorem ofInt?_toInt (n : Int64) : ofInt? n.toInt = some n := by
  rw [ofInt?, if_pos (fits_toInt n), Int64.ofInt_toInt]

theorem ofInt?_of_fits {z : Int} (h : Fits z) : ofInt? z = some (clamp z) := by
  have hz : max (-2 ^ 63) (min z (2 ^ 63 - 1)) = z := by
    obtain ⟨hlower, hupper⟩ := h
    omega
  rw [ofInt?, if_pos h, clamp, hz]

theorem exists_ofInt?_of_fits {z : Int} (h : Fits z) : ∃ n, ofInt? z = some n ∧ n.toInt = z :=
  have hn : ofInt? z = some (Int64.ofInt z) := if_pos h
  ⟨_, hn, toInt_of_ofInt? hn⟩

theorem ofInt?_eq_none_iff {z : Int} : ofInt? z = none ↔ ¬Fits z := by
  simp [ofInt?]

end Formula.Integer
