import Formula.Binary64.Integral
import Formula.Proofs.Binary64.Place
import Mathlib.Order.Monotone.Defs

/-!
# Rounding keeps the order

A larger quotient is never rounded to a smaller number. Its place says so at once: the number
nearest to a quotient stands at the rounded significand, counted on from the place where the
numbers of its exponent begin (`Binary64.place?_nearest`), whether or not the significand is carried
into the exponent and whether or not the number is finite. Within one exponent this place grows
with the rounded significand, and no significand reaches beyond the place where those of the next
exponent begin.

Hence integers keep their order when they are widened, though unequal ones may become equal
(`Binary64.atMost_ofInt64`).
-/

namespace Formula

private theorem roundHalfEven_mono (d : Nat) : Monotone (roundHalfEven · d) := by
  intro n n' h
  obtain hlt | heq := Nat.lt_or_eq_of_le (Nat.div_le_div_right h : n / d ≤ n' / d)
  · calc roundHalfEven n d ≤ n / d + 1 := roundHalfEven_le_succ n d
      _ ≤ n' / d := hlt
      _ ≤ roundHalfEven n' d := div_le_roundHalfEven n' d
  · have hmod : n % d ≤ n' % d := by
      have hn := Nat.div_add_mod n d
      have hn' := Nat.div_add_mod n' d
      rw [heq] at hn
      omega
    change roundHalfEven n d ≤ roundHalfEven n' d
    unfold roundHalfEven
    rw [heq]
    split <;> split <;> (try split) <;> (try split) <;> omega

namespace Binary64

/-- The place of the number nearest to the quotient `n / d` of units among the positive ones, as if
there were no largest exponent. -/
def nearestRank (n d : Nat) : Nat :=
  exponentFor (n / d) * 2 ^ 52 + roundHalfEven n (d * 2 ^ exponentFor (n / d))

/-- A rounded significand has at most 53 bits, the carry aside, and no fewer than that unless the
exponent is the least. -/
theorem roundHalfEven_bounds (n d : Nat) :
    roundHalfEven n (d * 2 ^ exponentFor (n / d)) ≤ 2 ^ 53 ∧
      (exponentFor (n / d) = 0 ∨ 2 ^ 52 ≤ roundHalfEven n (d * 2 ^ exponentFor (n / d))) := by
  obtain ⟨hupper, hlower⟩ := significand_bounds (n / d)
  rw [Nat.div_div_eq_div_mul] at hupper hlower
  exact ⟨(roundHalfEven_le_succ _ _).trans hupper,
    hlower.imp_right fun h => h.trans (div_le_roundHalfEven _ _)⟩

/-- A larger quotient does not need a smaller exponent. -/
private theorem exponentFor_mono : Monotone exponentFor := by
  intro q q' h
  have hlog : q.log2 ≤ q'.log2 := by
    by_cases hq : q = 0
    · rw [hq, Nat.log2_zero]
      exact Nat.zero_le _
    · rw [Nat.le_log2 (by omega)]
      exact (Nat.log2_self_le hq).trans h
  exact Nat.sub_le_sub_right hlog 52

/-- A larger quotient has no lower rank. -/
private theorem nearestRank_mono (d : Nat) : Monotone (nearestRank · d) := by
  intro n n' h
  have hexponent : exponentFor (n / d) ≤ exponentFor (n' / d) :=
    exponentFor_mono (Nat.div_le_div_right h)
  have hupper := (roundHalfEven_bounds n d).1
  have hlower := (roundHalfEven_bounds n' d).2
  have hsame : exponentFor (n / d) = exponentFor (n' / d) →
      roundHalfEven n (d * 2 ^ exponentFor (n / d)) ≤
        roundHalfEven n' (d * 2 ^ exponentFor (n' / d)) := by
    intro heq
    rw [heq]
    exact roundHalfEven_mono _ h
  change nearestRank n d ≤ nearestRank n' d
  unfold nearestRank
  omega

/-- The rank of a magnitude is never beyond the infinite one. -/
theorem Magnitude.elim_some_rank {m : Magnitude} {r : Nat} (h : m.rank = r) :
    (some m).elim infiniteRank rank = min r infiniteRank := by
  rw [Option.elim_some, ← h, min_eq_left m.rank_lt.le]

private theorem Magnitude.elim_none_rank {r : Nat} (h : infiniteRank ≤ r) :
    (none : Option Magnitude).elim infiniteRank rank = min r infiniteRank := by
  rw [Option.elim_none, min_eq_right h]

/-- The rank of a packed magnitude is read off its significand and exponent; a carry into the next
exponent needs no case of its own. -/
private theorem Magnitude.rank_pack? {significand exponent : Nat}
    (normal : exponent = 0 ∨ 2 ^ 52 ≤ significand) (hle : significand ≤ 2 ^ 53) :
    (pack? significand exponent normal).elim infiniteRank rank =
      min (exponent * 2 ^ 52 + significand) infiniteRank := by
  rw [pack?]
  split
  · split
    · exact elim_some_rank rfl
    · refine elim_none_rank ?_
      unfold infiniteRank
      omega
  · have hfull : significand = 2 ^ 53 := by omega
    split
    · -- the carried significand has the rank that follows those of its exponent
      refine elim_some_rank ?_
      change (exponent + 1) * 2 ^ 52 + 2 ^ 52 = exponent * 2 ^ 52 + significand
      omega
    · refine elim_none_rank ?_
      unfold infiniteRank
      omega

/-- The rank of what a quotient is rounded to, with infinity behind all of them. -/
private theorem Magnitude.rank_nearest? (n d : Nat) :
    (nearest? n d).elim infiniteRank rank = min (nearestRank n d) infiniteRank := by
  obtain ⟨hupper, hlower⟩ := roundHalfEven_bounds n d
  unfold nearest? nearestRank
  exact rank_pack? hlower hupper

/-- **The place of a rounded number.** -/
theorem place?_nearest (negative : Bool) (n d : Nat) :
    (nearest negative n d).place? =
      some (signed negative (min (nearestRank n d) infiniteRank)) := by
  rw [← Magnitude.rank_nearest?]
  unfold nearest
  cases Magnitude.nearest? n d with
  | none => rw [Option.elim_none, place?]
  | some m => rw [Option.elim_some, place?]

/-! ### Integers -/

/-- A measure of magnitudes that keeps their order keeps that of integers when it is taken with
their signs. -/
theorem signed_mono {f : Nat → Nat} (hf : Monotone f) {i j : Int} (h : i ≤ j) :
    signed (decide (i < 0)) (f i.natAbs) ≤ signed (decide (j < 0)) (f j.natAbs) := by
  by_cases hi : i < 0 <;> by_cases hj : j < 0
  · have hle := hf (show j.natAbs ≤ i.natAbs by omega)
    simp only [decide_eq_true hi, decide_eq_true hj, signed_true]
    omega
  · simp only [decide_eq_true hi, decide_eq_false hj, signed_true, signed_false]
    omega
  · omega
  · have hle := hf (show i.natAbs ≤ j.natAbs by omega)
    simp only [decide_eq_false hi, decide_eq_false hj, signed_false]
    omega

/-- The place of the number nearest to an integer. -/
def integerPlace (z : Int) : Int :=
  signed (decide (z < 0)) (min (nearestRank (z.natAbs * unitsPerOne) 1) infiniteRank)

private theorem place?_ofInt (z : Int) :
    (ofInt z).place? = some (integerPlace z) := place?_nearest _ _ _

/-- **Integers keep their order when they are rounded.** -/
theorem integerPlace_mono {i j : Int} (h : i ≤ j) : integerPlace i ≤ integerPlace j := by
  refine signed_mono (f := fun k => min (nearestRank (k * unitsPerOne) 1) infiniteRank) ?_ h
  intro k k' hk
  exact min_le_min_right _ (nearestRank_mono 1 (Nat.mul_le_mul_right _ hk))

theorem place?_ofInt64 (n : Int64) : (ofInt64 n).place? = some (integerPlace n.toInt) :=
  place?_ofInt n.toInt

/-- Widening integers keeps their order, although it may make two of them equal. -/
theorem atMost_ofInt64 {m n : Int64} (h : m.toInt ≤ n.toInt) :
    (ofInt64 m).atMost (ofInt64 n) = true :=
  (atMost_iff_of_place? (place?_ofInt64 m) (place?_ofInt64 n)).mpr (integerPlace_mono h)

end Binary64

end Formula
