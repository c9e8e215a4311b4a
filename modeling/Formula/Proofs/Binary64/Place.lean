import Formula.Binary64.Order
import Formula.Proofs.Binary64.Exact
import Mathlib.Data.Option.NAry

/-!
# The chain of all numbers

The numbers stand in a chain, each in front of the next larger one. `Binary64.place?` counts them
from zero: the rank of the magnitude with the number's sign, and the infinities at the two ends.

Of two numbers the one with the greater value has the greater place, so that the order of the
numbers is that of their places (`Binary64.compare?_eq_map₂`). The two zeros share a place, and
no other numbers do (`Binary64.eq_of_place?`); no place between the ends is empty
(`Binary64.exists_of_natAbs_le`).
-/

namespace Formula.Binary64

variable {x y : Binary64} {p q : Int} {a b : Magnitude}

/-- The place of a number in the chain of all numbers, counted from zero. -/
def place? : Binary64 → Option Int
  | .finite s m => some (signed s m.rank)
  | .infinite s => some (signed s infiniteRank)
  | .nan => none

theorem place?_eq_none_iff : x.place? = none ↔ x = nan := by
  cases x <;> simp [place?]

theorem exists_place? (hx : x ≠ nan) : ∃ p, x.place? = some p :=
  Option.ne_none_iff_exists'.mp (mt place?_eq_none_iff.mp hx)

theorem ne_nan_of_place? (hx : x.place? = some p) : x ≠ nan := by
  rintro rfl
  exact absurd hx (Option.some_ne_none p).symm

theorem not_isNaN (hx : x.place? = some p) : ¬x.isNaN = true := by
  cases x with
  | finite s m => exact Bool.false_ne_true
  | infinite s => exact Bool.false_ne_true
  | nan => exact absurd rfl (ne_nan_of_place? hx)

/-- The infinities are the ends of the chain. -/
theorem natAbs_le_of_place? (hx : x.place? = some p) : p.natAbs ≤ infiniteRank := by
  cases x with
  | finite s m =>
    rw [← Option.some.inj hx, natAbs_signed]
    exact m.rank_lt.le
  | infinite s => rw [← Option.some.inj hx, natAbs_signed]
  | nan => exact absurd rfl (ne_nan_of_place? hx)

/-! ### Ranks of magnitudes -/

namespace Magnitude

theorem rank_injective : Function.Injective rank := by
  intro a b h
  rw [← ofRank_rank a, ← ofRank_rank b]
  simp only [h]

/-- A magnitude with the larger exponent has the higher rank, whatever the significands are. -/
private theorem rank_lt_of_exponent_lt (h : a.exponent < b.exponent) : a.rank < b.rank := by
  have hlt := a.significand_lt
  have hfull : 2 ^ 52 ≤ b.significand := b.normal.resolve_left (by omega)
  unfold rank
  omega

/-- The larger magnitude has the larger rank. -/
theorem rank_lt_rank_iff : a.rank < b.rank ↔ a.units < b.units := by
  obtain h | h | h := Nat.lt_trichotomy a.exponent b.exponent
  · exact iff_of_true (rank_lt_of_exponent_lt h) (units_lt_of_exponent_lt h)
  · rw [rank, rank, units, units, h, Nat.add_lt_add_iff_left,
      Nat.mul_lt_mul_right (Nat.two_pow_pos _)]
  · exact iff_of_false (rank_lt_of_exponent_lt h).not_gt (units_lt_of_exponent_lt h).not_gt

private theorem rank_eq_zero_iff : a.rank = 0 ↔ a.units = 0 := by
  have hnormal := a.normal
  rw [units_eq_zero_iff, rank]
  omega

end Magnitude

/-! ### The order of places -/

/-- Numbers with signs keep their order if their magnitudes are measured in another way that keeps
the order of magnitudes and zero. -/
theorem signed_lt_signed_iff {u v r w : Nat} (hlt : r < w ↔ u < v) (hgt : w < r ↔ v < u)
    (hu : r = 0 ↔ u = 0) (hv : w = 0 ↔ v = 0) (s t : Bool) :
    signed s u < signed t v ↔ signed s r < signed t w := by
  cases s <;> cases t <;> simp only [signed_false, signed_true] <;> omega

/-- Ranks with signs are ordered as units with signs. -/
private theorem signed_units_lt_iff (s t : Bool) (a b : Magnitude) :
    signed s a.units < signed t b.units ↔ signed s a.rank < signed t b.rank :=
  signed_lt_signed_iff Magnitude.rank_lt_rank_iff Magnitude.rank_lt_rank_iff
    Magnitude.rank_eq_zero_iff Magnitude.rank_eq_zero_iff s t

/-- A smaller magnitude lies between the two numbers of a larger one, whatever its sign is. -/
theorem signed_between {r w : Nat} (h : r < w) (s : Bool) :
    signed true w < signed s r ∧ signed s r < signed false w := by
  cases s <;> simp only [signed_false, signed_true] <;> omega

/-- Two comparisons agree if both strict relations do. -/
theorem compare_congr {α β : Type*} [LinearOrder α] [LinearOrder β] {i j : α} {i' j' : β}
    (hlt : i < j ↔ i' < j') (hgt : j < i ↔ j' < i') : compare i j = compare i' j' := by
  obtain h | h | h := lt_trichotomy i j
  · rw [compare_lt_iff_lt.mpr h, compare_lt_iff_lt.mpr (hlt.mp h)]
  · have h' : i' = j' :=
      le_antisymm (not_lt.mp (mt hgt.mpr h.not_gt)) (not_lt.mp (mt hlt.mpr h.not_lt))
    rw [compare_eq_iff_eq.mpr h, compare_eq_iff_eq.mpr h']
  · rw [compare_gt_iff_gt.mpr h, compare_gt_iff_gt.mpr (hgt.mp h)]

/-- **The order of the numbers is the order of their places.** -/
theorem compare?_eq_map₂ (x y : Binary64) :
    x.compare? y = Option.map₂ compare x.place? y.place? := by
  cases x with
  | nan => rfl
  | finite s a =>
    cases y with
    | nan => rfl
    | finite t b =>
      exact congrArg some
        (compare_congr (signed_units_lt_iff s t a b) (signed_units_lt_iff t s b a))
    | infinite t =>
      obtain ⟨hbelow, habove⟩ := signed_between a.rank_lt s
      cases t with
      | false => exact congrArg some (compare_lt_iff_lt.mpr habove).symm
      | true => exact congrArg some (compare_gt_iff_gt.mpr hbelow).symm
  | infinite s =>
    cases y with
    | nan => rfl
    | finite t b =>
      obtain ⟨hbelow, habove⟩ := signed_between b.rank_lt t
      cases s with
      | false => exact congrArg some (compare_gt_iff_gt.mpr habove).symm
      | true => exact congrArg some (compare_lt_iff_lt.mpr hbelow).symm
    | infinite t => cases s <;> cases t <;> rfl

theorem compare?_of_place? (hx : x.place? = some p) (hy : y.place? = some q) :
    x.compare? y = some (compare p q) := by
  rw [compare?_eq_map₂, hx, hy]
  rfl

/-- Comparing in the other order gives the opposite answer, and no answer for what is no number. -/
theorem compare?_swap (x y : Binary64) : y.compare? x = (x.compare? y).map Ordering.swap := by
  rw [compare?_eq_map₂, compare?_eq_map₂]
  cases x.place? with
  | none => rw [Option.map₂_none_left, Option.map₂_none_right, Option.map_none]
  | some p =>
    cases y.place? with
    | none => rw [Option.map₂_none_left, Option.map₂_none_right, Option.map_none]
    | some q => exact congrArg some Std.OrientedOrd.eq_swap

theorem less_iff_of_place? (hx : x.place? = some p) (hy : y.place? = some q) :
    x.less y = true ↔ p < q := by
  rw [less, compare?_of_place? hx hy, beq_iff_eq, Option.some_inj, compare_lt_iff_lt]

theorem equal_iff_of_place? (hx : x.place? = some p) (hy : y.place? = some q) :
    x.equal y = true ↔ p = q := by
  rw [equal, compare?_of_place? hx hy, beq_iff_eq, Option.some_inj, compare_eq_iff_eq]

theorem atMost_iff_of_place? (hx : x.place? = some p) (hy : y.place? = some q) :
    x.atMost y = true ↔ p ≤ q := by
  rw [atMost, Bool.or_eq_true, less_iff_of_place? hx hy, equal_iff_of_place? hx hy,
    Int.le_iff_lt_or_eq]

theorem place?_smaller (hx : x.place? = some p) (hy : y.place? = some q) :
    (x.smaller y).place? = some (min p q) := by
  rw [smaller, if_neg (not_isNaN hx), if_neg (not_isNaN hy)]
  split
  · next h => rw [hy, min_eq_right ((less_iff_of_place? hy hx).mp h).le]
  · next h => rw [hx, min_eq_left (not_lt.mp (mt (less_iff_of_place? hy hx).mpr h))]

theorem place?_larger (hx : x.place? = some p) (hy : y.place? = some q) :
    (x.larger y).place? = some (max p q) := by
  rw [larger, if_neg (not_isNaN hx), if_neg (not_isNaN hy)]
  split
  · next h => rw [hy, max_eq_right ((less_iff_of_place? hx hy).mp h).le]
  · next h => rw [hx, max_eq_left (not_lt.mp (mt (less_iff_of_place? hx hy).mpr h))]

/-! ### Which numbers stand at a place -/

/-- A number with a sign tells its magnitude, and its sign unless it is zero. -/
theorem eq_of_signed_eq {s t : Bool} {u v : Nat} (h : signed s u = signed t v) :
    u = v ∧ (u ≠ 0 → s = t) := by
  have huv : u = v := by rw [← natAbs_signed s u, h, natAbs_signed]
  refine ⟨huv, fun hu => ?_⟩
  rw [← decide_signed_lt_zero s hu, h, decide_signed_lt_zero t (huv ▸ hu)]

/-- Numbers at one place are the same, but for the negative zero, which stands where the positive
one does. -/
theorem eq_of_place? (hx : x.place? = some p) (hy : y.place? = some p) (hxzero : x ≠ zero true)
    (hyzero : y ≠ zero true) : x = y := by
  cases x with
  | nan => exact absurd rfl (ne_nan_of_place? hx)
  | finite s a =>
    cases y with
    | nan => exact absurd rfl (ne_nan_of_place? hy)
    | finite t b =>
      obtain ⟨hrank, hsign⟩ := eq_of_signed_eq (Option.some.inj (hx.trans hy.symm))
      obtain rfl : a = b := Magnitude.rank_injective hrank
      by_cases hzero : a = .zero
      · subst hzero
        obtain rfl : s = false := Bool.eq_false_iff.mpr fun hs => hxzero (hs ▸ rfl)
        obtain rfl : t = false := Bool.eq_false_iff.mpr fun ht => hyzero (ht ▸ rfl)
        rfl
      · rw [hsign fun h => hzero (Magnitude.rank_injective h)]
    | infinite t =>
      obtain ⟨hrank, -⟩ := eq_of_signed_eq (Option.some.inj (hx.trans hy.symm))
      exact absurd hrank a.rank_lt.ne
  | infinite s =>
    cases y with
    | nan => exact absurd rfl (ne_nan_of_place? hy)
    | finite t b =>
      obtain ⟨hrank, -⟩ := eq_of_signed_eq (Option.some.inj (hx.trans hy.symm))
      exact absurd hrank b.rank_lt.ne'
    | infinite t =>
      obtain ⟨-, hsign⟩ := eq_of_signed_eq (Option.some.inj (hx.trans hy.symm))
      have hpos : infiniteRank ≠ 0 := by decide
      rw [hsign hpos]

/-- Both zeros stand in the middle. -/
theorem place?_zero (negative : Bool) : (zero negative).place? = some 0 := by
  have hrank : Magnitude.zero.rank = 0 := rfl
  rw [zero, place?, hrank, signed_zero]

/-- Two numbers share a place only if they are the same or the two zeros. -/
theorem eq_or_zeros_of_place? (hx : x.place? = some p) (hy : y.place? = some p) :
    x = y ∨ x = zero false ∧ y = zero true ∨ x = zero true ∧ y = zero false := by
  by_cases hxzero : x = zero true
  · by_cases hyzero : y = zero true
    · exact .inl (hxzero.trans hyzero.symm)
    · -- the negative zero stands where the positive one does
      have hpositive : (zero false).place? = some p := by
        rw [← hx, hxzero, place?_zero, place?_zero]
      have hy' := eq_of_place? hy hpositive hyzero (by decide)
      exact .inr (.inr ⟨hxzero, hy'⟩)
  · by_cases hyzero : y = zero true
    · have hpositive : (zero false).place? = some p := by
        rw [← hy, hyzero, place?_zero, place?_zero]
      have hx' := eq_of_place? hx hpositive hxzero (by decide)
      exact .inr (.inl ⟨hx', hyzero⟩)
    · exact .inl (eq_of_place? hx hy hxzero hyzero)

/-- No place between the ends is empty. -/
theorem exists_of_natAbs_le (h : p.natAbs ≤ infiniteRank) :
    ∃ x : Binary64, x ≠ zero true ∧ x.place? = some p := by
  obtain hlt | heq := Nat.lt_or_eq_of_le h
  · refine ⟨finite (decide (p < 0)) (.ofRank p.natAbs hlt), fun hzero => ?_, ?_⟩
    · obtain ⟨hnegative, hmagnitude⟩ := finite.inj hzero
      have hrank : p.natAbs = 0 := by
        rw [← Magnitude.rank_ofRank p.natAbs hlt, hmagnitude]
        rfl
      exact absurd (of_decide_eq_true hnegative) (by omega)
    · rw [place?, Magnitude.rank_ofRank, signed_natAbs]
  · refine ⟨infinite (decide (p < 0)), Binary64.noConfusion, ?_⟩
    rw [place?, ← heq, signed_natAbs]

end Formula.Binary64
