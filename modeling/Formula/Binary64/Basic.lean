import Formula.Instances

/-!
# Binary floating point in sixty-four bits

A finite number is a sign together with a magnitude, and a magnitude is a significand of at
most 53 bits shifted left by an exponent. Everything is counted in *units* of `2⁻¹⁰⁷⁴`, the
least positive magnitude, so that every finite number is an integral number of units and
exact statements about them are statements about natural numbers and integers.

* `Binary64.Magnitude` carries the shape of the format in its proof fields: at most 53 bits,
  and all 53 of them used unless the exponent is least. Each magnitude therefore has exactly
  one significand and one exponent.
* `Binary64` adds the sign, the two infinities and a single value that is not a number.
* `Binary64.toBits` and `Binary64.ofBits` are the interchange format; every pattern that
  encodes "not a number" is read as the one such value, and each number is read back from its
  own pattern (`Binary64.ofBits_toBits`).
-/

namespace Formula

/-- A finite magnitude: `significand · 2 ^ exponent` units of `2⁻¹⁰⁷⁴`. -/
structure Binary64.Magnitude where
  significand : Nat
  exponent : Nat
  /-- The significand has at most 53 bits. -/
  significand_lt : significand < 2 ^ 53
  /-- It has all of them unless the exponent is the least. -/
  normal : exponent = 0 ∨ 2 ^ 52 ≤ significand
  /-- The largest finite magnitude is just below `2 ^ 1024`. -/
  exponent_le : exponent ≤ 2045
  deriving DecidableEq

/-- A number of the format: finite with a sign, infinite with a sign, or not a number. -/
inductive Binary64 where
  | finite (negative : Bool) (magnitude : Binary64.Magnitude)
  | infinite (negative : Bool)
  | nan
  deriving DecidableEq

namespace Binary64

/-- The number of units in one: a unit is `2⁻¹⁰⁷⁴`. -/
def unitsPerOne : Nat := 2 ^ 1074

namespace Magnitude

/-- The magnitude as a number of units. -/
def units (m : Magnitude) : Nat := m.significand * 2 ^ m.exponent

/-- The magnitude zero. -/
def zero : Magnitude := ⟨0, 0, by decide, .inl rfl, by decide⟩

/-- The place of the magnitude among all magnitudes, zero being the first: consecutive
magnitudes have consecutive ranks, because a full significand carries into the exponent. -/
def rank (m : Magnitude) : Nat := m.exponent * 2 ^ 52 + m.significand

theorem units_eq_zero_iff (m : Magnitude) : m.units = 0 ↔ m.significand = 0 :=
  Nat.mul_eq_zero.trans (or_iff_left (Nat.ne_of_gt (Nat.two_pow_pos m.exponent)))

end Magnitude

/-- The rank that follows every finite magnitude, taken by the infinite one. -/
def infiniteRank : Nat := 0x7FF0000000000000

/-- The magnitude of a given rank. -/
def Magnitude.ofRank (r : Nat) (h : r < infiniteRank) : Magnitude :=
  if small : r < 2 ^ 52 then
    ⟨r, 0, by omega, .inl rfl, by decide⟩
  else
    ⟨r % 2 ^ 52 + 2 ^ 52, r / 2 ^ 52 - 1, by omega, .inr (by omega), by
      unfold infiniteRank at h; omega⟩

namespace Magnitude

theorem rank_lt (m : Magnitude) : m.rank < infiniteRank := by
  have := m.significand_lt
  have := m.exponent_le
  unfold rank infiniteRank
  omega

/-- A magnitude is made for each rank below that of infinity, and has it. -/
theorem rank_ofRank (r : Nat) (h : r < infiniteRank) : (ofRank r h).rank = r := by
  unfold ofRank
  split
  · simp [rank]
  · simp only [rank]
    omega

/-- A magnitude is determined by its rank. -/
theorem ofRank_rank (m : Magnitude) : ofRank m.rank m.rank_lt = m := by
  obtain ⟨s, e, hs, normal, he⟩ := m
  unfold ofRank rank
  dsimp only
  split
  · obtain rfl : e = 0 := by omega
    simp
  · have : e = 0 ∨ 0 < e := Nat.eq_zero_or_pos e
    simp only [mk.injEq]
    omega

end Magnitude

/-- The zero of the given sign. -/
def zero (negative : Bool) : Binary64 := .finite negative .zero

/-- Is it one of the two zeros? -/
def isZero : Binary64 → Bool
  | .finite _ m => m.significand == 0
  | _ => false

/-- Is it the value that is not a number? -/
def isNaN : Binary64 → Bool
  | .nan => true
  | _ => false

/-- Is the number finite? -/
def isFinite : Binary64 → Bool
  | .finite _ _ => true
  | _ => false

/-- Is the sign negative? The negative zero has a negative sign; what is not a number has
none. -/
def isNegative : Binary64 → Bool
  | .finite negative _ => negative
  | .infinite negative => negative
  | .nan => false

/-- A magnitude of units with a sign, as an integer. -/
def signed (negative : Bool) (units : Nat) : Int :=
  if negative then -(units : Int) else units

/-- The exact value as an integral number of units, if it is finite. -/
def scaled? : Binary64 → Option Int
  | .finite negative m => some (signed negative m.units)
  | _ => none

/-! ### The interchange format -/

/-- The pattern of bits: the sign in the top bit and the rank of the magnitude below it. -/
def toBits : Binary64 → UInt64
  | .finite negative m => pattern negative m.rank
  | .infinite negative => pattern negative infiniteRank
  | .nan => 0x7FF8000000000000
where
  /-- A rank below the sign bit. -/
  pattern (negative : Bool) (rank : Nat) : UInt64 :=
    UInt64.ofNat (if negative then 2 ^ 63 + rank else rank)

/-- The number that a pattern of bits stands for. -/
def ofBits (bits : UInt64) : Binary64 :=
  let negative := decide (2 ^ 63 ≤ bits.toNat)
  let rank := bits.toNat % 2 ^ 63
  if h : rank < infiniteRank then .finite negative (.ofRank rank h)
  else if rank = infiniteRank then .infinite negative
  else .nan

/-- A pattern as a natural number: the sign is the place of `2 ^ 63`. -/
private theorem toNat_pattern (negative : Bool) {r : Nat} (h : r < 2 ^ 63) :
    (toBits.pattern negative r).toNat = if negative then 2 ^ 63 + r else r := by
  unfold toBits.pattern
  rw [UInt64.toNat_ofNat_of_lt']
  cases negative <;> simp [UInt64.size]
  all_goals omega

/-- A number is read back from its pattern. -/
theorem ofBits_toBits (x : Binary64) : ofBits x.toBits = x := by
  cases x with
  | finite s m =>
    have lt : m.rank < 2 ^ 63 := Nat.lt_trans m.rank_lt (by decide)
    have sign : decide (2 ^ 63 ≤ (toBits.pattern s m.rank).toNat) = s := by
      rw [toNat_pattern s lt]
      cases s with
      | false => exact decide_eq_false (Nat.not_le.mpr lt)
      | true => exact decide_eq_true (Nat.le_add_right _ _)
    have rank : (toBits.pattern s m.rank).toNat % 2 ^ 63 = m.rank := by
      rw [toNat_pattern s lt]
      cases s with
      | false => exact Nat.mod_eq_of_lt lt
      | true => exact (Nat.add_mod_left _ _).trans (Nat.mod_eq_of_lt lt)
    simp only [ofBits, toBits, rank, dif_pos m.rank_lt, Magnitude.ofRank_rank]
    exact congrArg (finite · m) sign
  | infinite s => cases s <;> decide
  | nan => decide

end Binary64

end Formula
