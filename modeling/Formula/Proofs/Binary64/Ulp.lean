import Formula.Binary64.Ulp
import Formula.Integer
import Formula.Proofs.Binary64.Place
import Mathlib.Data.Int.Interval
import Mathlib.Data.Set.Card

/-!
# Steps along the chain of all numbers

A pattern of bits that stands for a number is reflected to the number's place in the chain
(`Binary64.toInt_orderedBits`), and the reflection never leaves the integers of sixty-four bits.
So the distance of two numbers is the difference of their places, which sixty-four bits hold with
room to spare (`Binary64.toNat_of_ulpDistance?`).

A difference of places is a number of steps: no place is empty and no two numbers share one, the two
zeros counted once. `Binary64.encard_above` counts the numbers above one number up to another one in
this way, and `Binary64.steps_eq` the steps between two numbers.
-/

namespace Formula

/-- A difference that fits into sixty-four bits does not wrap. -/
theorem Integer.toInt_sub_of_fits {m n : Int64} (h : Fits (m.toInt - n.toInt)) :
    (m - n).toInt = m.toInt - n.toInt := by
  rw [← Int64.ofInt_toInt m, ← Int64.ofInt_toInt n, ← Int64.ofInt_sub, Int64.ofInt_toInt,
    Int64.ofInt_toInt]
  exact Int64.toInt_ofInt_of_le h.1 h.2

namespace Binary64

variable {x y z : Binary64} {p q : Int} {bits : UInt64}

/-! ### Patterns -/

/-- A pattern of bits read with a sign: patterns with the top bit set are negative. -/
private theorem toInt_toInt64 (bits : UInt64) : bits.toInt64.toInt =
    if bits.toNat < 2 ^ 63 then (bits.toNat : Int) else bits.toNat - 2 ^ 64 := by
  rw [← Int64.toInt_toBitVec, UInt64.toBitVec_toInt64, BitVec.toInt_eq_toNat_cond,
    UInt64.toNat_toBitVec]
  split <;> split <;> omega

/-- The reflection of a pattern stays within sixty-four bits. -/
theorem fits_reflection (h : bits.toInt64 < 0) :
    Integer.Fits (Int64.minValue.toInt - bits.toInt64.toInt) := by
  have hneg : bits.toInt64.toInt < 0 := Int64.lt_iff_toInt_lt.mp h
  have hle := Int64.le_toInt bits.toInt64
  change -2 ^ 63 ≤ -2 ^ 63 - bits.toInt64.toInt ∧ -2 ^ 63 - bits.toInt64.toInt < 2 ^ 63
  omega

/-- The rest of a pattern, with the sign that its first bit tells. -/
theorem toInt_orderedBits (bits : UInt64) : (orderedBits bits).toInt =
    signed (decide (2 ^ 63 ≤ bits.toNat)) (bits.toNat % 2 ^ 63) := by
  have hbound := bits.toNat_lt
  have hvalue := toInt_toInt64 bits
  have hsign : bits.toInt64 < 0 ↔ bits.toInt64.toInt < 0 := Int64.lt_iff_toInt_lt
  by_cases hpositive : bits.toNat < 2 ^ 63
  · rw [if_pos hpositive] at hvalue
    rw [orderedBits, if_neg (mt hsign.mp (by omega)), decide_eq_false (by omega), signed_false,
      hvalue, Nat.mod_eq_of_lt hpositive]
  · rw [if_neg hpositive] at hvalue
    have hnegative : bits.toInt64 < 0 := hsign.mpr (by omega)
    rw [orderedBits, if_pos hnegative, decide_eq_true (by omega), signed_true,
      Integer.toInt_sub_of_fits (fits_reflection hnegative), hvalue]
    change -2 ^ 63 - ((bits.toNat : Int) - 2 ^ 64) = _
    omega

/-- **The reflected pattern of a number is its place.** -/
theorem place?_ofBits (h : ofBits bits ≠ nan) :
    (ofBits bits).place? = some (orderedBits bits).toInt := by
  rw [toInt_orderedBits]
  rw [ofBits] at h ⊢
  split at h
  · next hlt => rw [dif_pos hlt, place?, Magnitude.rank_ofRank]
  · next hge =>
    split at h
    · next heq => rw [dif_neg hge, if_pos heq, place?, heq]
    · exact absurd rfl h

/-- The place of a number is the integer that the bits are reflected to. -/
private theorem place?_eq_orderedBits (hx : x ≠ nan) :
    x.place? = some (orderedBits x.toBits).toInt := by
  have hbits := ofBits_toBits x
  rw [← place?_ofBits (hbits.symm ▸ hx), hbits]

/-! ### Distances -/

private theorem isNaN_iff : x.isNaN = true ↔ x = nan := by
  cases x <;> simp [isNaN]

private theorem ulpDistance?_eq_none_iff : x.ulpDistance? y = none ↔ x = nan ∨ y = nan := by
  rw [ulpDistance?, ← isNaN_iff, ← isNaN_iff, ← Bool.or_eq_true]
  split
  · next h => exact iff_of_true rfl h
  · next h => exact iff_of_false (Option.some_ne_none _) h

/-- The distance of two numbers is the difference of their places, and far below the largest
count. -/
theorem exists_ulpDistance? (hx : x.place? = some p) (hy : y.place? = some q) :
    ∃ d, x.ulpDistance? y = some d ∧ d.toNat = (p - q).natAbs ∧ d < largestCount := by
  have hbounds : (p - q).natAbs ≤ 2 * infiniteRank := by
    have hp := natAbs_le_of_place? hx
    have hq := natAbs_le_of_place? hy
    omega
  have hsmall : (p - q).natAbs < UInt64.size - 1 := hbounds.trans_lt (by decide)
  have hfinite : ¬(x.isNaN || y.isNaN) = true := by
    rw [Bool.or_eq_true]
    exact not_or.mpr ⟨not_isNaN hx, not_isNaN hy⟩
  rw [place?_eq_orderedBits (ne_nan_of_place? hx), Option.some_inj] at hx
  rw [place?_eq_orderedBits (ne_nan_of_place? hy), Option.some_inj] at hy
  rw [ulpDistance?, if_neg hfinite, hx, hy]
  dsimp only
  rw [if_pos (by omega)]
  have hvalue : (UInt64.ofNat (p - q).natAbs).toNat = (p - q).natAbs :=
    UInt64.toNat_ofNat_of_lt' (by omega)
  refine ⟨_, rfl, hvalue, UInt64.lt_iff_toNat_lt.mpr ?_⟩
  rw [hvalue]
  exact hsmall

/-! ### Counting -/

/-- The numbers above one number up to another one, the two zeros counted as one. -/
def above (x y : Binary64) : Set Binary64 :=
  {c | c ≠ zero true ∧ x.less c = true ∧ c.atMost y = true}

/-- How many numbers there are above the smaller of two numbers up to the larger one: the number of
steps from one to the other. -/
noncomputable def steps (x y : Binary64) : ℕ∞ := (above (x.smaller y) (x.larger y)).encard

/-- The numbers that are counted between two others are those with a place behind the first and not
behind the second; of the two zeros one is counted. -/
private theorem mem_above_iff (hx : x.place? = some p) (hy : y.place? = some q) :
    z ∈ above x y ↔ z ≠ zero true ∧ ∃ r, (p < r ∧ r ≤ q) ∧ z.place? = some r := by
  refine and_congr_right fun _ => ?_
  by_cases hz : z = nan
  · subst hz
    refine iff_of_false (fun h => ?_) (fun ⟨r, _, hr⟩ => absurd hr (Option.some_ne_none r).symm)
    cases x <;> exact absurd h.1 Bool.false_ne_true
  · obtain ⟨r, hr⟩ := exists_place? hz
    rw [less_iff_of_place? hx hr, atMost_iff_of_place? hr hy, hr]
    simp

/-- There are as many numbers from one to another as their places differ by. -/
theorem encard_above (hx : x.place? = some p) (hy : y.place? = some q) :
    (above x y).encard = (q - p).toNat := by
  have hinj : Set.InjOn place? (above x y) := by
    intro z hz z' hz' heq
    obtain ⟨hne, r, -, hr⟩ := (mem_above_iff hx hy).mp hz
    obtain ⟨hne', -⟩ := (mem_above_iff hx hy).mp hz'
    exact eq_of_place? hr (heq ▸ hr) hne hne'
  have himage : place? '' above x y = some '' Set.Ioc p q := by
    ext r?
    constructor
    · rintro ⟨z, hz, rfl⟩
      obtain ⟨-, r, hmem, hr⟩ := (mem_above_iff hx hy).mp hz
      exact ⟨r, hmem, hr.symm⟩
    · rintro ⟨r, hmem, rfl⟩
      have hp := natAbs_le_of_place? hx
      have hq := natAbs_le_of_place? hy
      obtain ⟨hpr, hrq⟩ := Set.mem_Ioc.mp hmem
      obtain ⟨z, hne, hr⟩ := exists_of_natAbs_le (p := r) (by omega)
      exact ⟨z, (mem_above_iff hx hy).mpr ⟨hne, r, hmem, hr⟩, hr⟩
  calc (above x y).encard = (place? '' above x y).encard := hinj.encard_image.symm
    _ = (Set.Ioc p q).encard := by
      rw [himage, (Option.some_injective _).injOn.encard_image]
    _ = (q - p).toNat := by
      rw [← Finset.coe_Ioc, Set.encard_coe_eq_coe_finsetCard, Int.card_Ioc]

/-- **The number of steps is the difference of the places.** -/
theorem steps_eq (hx : x.place? = some p) (hy : y.place? = some q) :
    steps x y = (p - q).natAbs := by
  rw [steps, encard_above (place?_smaller hx hy) (place?_larger hx hy)]
  congr 1
  omega

/-! ### Laws of distances -/

private theorem ulpDistance?_comm (x y : Binary64) : x.ulpDistance? y = y.ulpDistance? x := by
  rw [ulpDistance?, ulpDistance?, Bool.or_comm, ← Int.natAbs_neg, Int.neg_sub]

/-- The distance is that of the places, and no difference of places is too large for it. -/
theorem toNat_of_ulpDistance? {d : UInt64} (hx : x.place? = some p) (hy : y.place? = some q)
    (h : x.ulpDistance? y = some d) : d.toNat = (p - q).natAbs := by
  obtain ⟨d', hd', hvalue, -⟩ := exists_ulpDistance? hx hy
  obtain rfl : d = d' := Option.some.inj (h.symm.trans hd')
  exact hvalue

private theorem ulpDistance?_eq_zero_iff (hx : x.place? = some p) (hy : y.place? = some q) :
    x.ulpDistance? y = some 0 ↔ p = q := by
  obtain ⟨d, hd, hvalue, -⟩ := exists_ulpDistance? hx hy
  rw [hd, Option.some_inj, ← UInt64.toNat_inj, hvalue, UInt64.toNat_zero, Int.natAbs_eq_zero,
    Int.sub_eq_zero]

/-- What holds of three patterns, of their numbers and of the distances between these. -/
structure Stepwise (p q r : UInt64) : Prop where
  fits : p.toInt64 < 0 → Integer.Fits (Int64.minValue.toInt - p.toInt64.toInt)
  lt_iff : ofBits p ≠ nan → ofBits q ≠ nan →
    (orderedBits p < orderedBits q ↔ (ofBits p).less (ofBits q) = true)
  eq_iff : ofBits p ≠ nan → ofBits q ≠ nan →
    (orderedBits p = orderedBits q ↔ (ofBits p).equal (ofBits q) = true)
  eq_none_iff : (ofBits p).ulpDistance? (ofBits q) = none ↔ ofBits p = nan ∨ ofBits q = nan
  count : ofBits p ≠ nan → ofBits q ≠ nan → ∃ d, (ofBits p).ulpDistance? (ofBits q) = some d ∧
    steps (ofBits p) (ofBits q) = d.toNat ∧ d < largestCount
  symm : (ofBits p).ulpDistance? (ofBits q) = (ofBits q).ulpDistance? (ofBits p)
  eq_zero_iff : ofBits p ≠ nan → ofBits q ≠ nan →
    ((ofBits p).ulpDistance? (ofBits q) = some 0 ↔ (ofBits p).equal (ofBits q) = true)
  triangle : ∀ d e f, (ofBits p).ulpDistance? (ofBits q) = some d →
    (ofBits q).ulpDistance? (ofBits r) = some e → (ofBits p).ulpDistance? (ofBits r) = some f →
    f.toNat ≤ d.toNat + e.toNat

/-- **Distances are numbers of steps.** -/
theorem stepwise (p q r : UInt64) : Stepwise p q r where
  fits := fits_reflection
  lt_iff hp hq := by
    rw [less_iff_of_place? (place?_ofBits hp) (place?_ofBits hq), Int64.lt_iff_toInt_lt]
  eq_iff hp hq := by
    rw [equal_iff_of_place? (place?_ofBits hp) (place?_ofBits hq), Int64.toInt_inj]
  eq_none_iff := ulpDistance?_eq_none_iff
  count hp hq := by
    have hplace := place?_ofBits hp
    have hplace' := place?_ofBits hq
    obtain ⟨d, hd, hvalue, hlt⟩ := exists_ulpDistance? hplace hplace'
    exact ⟨d, hd, by rw [steps_eq hplace hplace', hvalue], hlt⟩
  symm := ulpDistance?_comm _ _
  eq_zero_iff hp hq := by
    rw [ulpDistance?_eq_zero_iff (place?_ofBits hp) (place?_ofBits hq),
      equal_iff_of_place? (place?_ofBits hp) (place?_ofBits hq)]
  triangle d e f hd he hf := by
    have hnumbers : ∀ {x y : Binary64} {d : UInt64}, x.ulpDistance? y = some d →
        x ≠ nan ∧ y ≠ nan := fun h =>
      not_or.mp (mt ulpDistance?_eq_none_iff.mpr (h ▸ Option.some_ne_none _))
    have hp := place?_ofBits (hnumbers hd).1
    have hq := place?_ofBits (hnumbers hd).2
    have hr := place?_ofBits (hnumbers he).2
    have hd' := toNat_of_ulpDistance? hp hq hd
    have he' := toNat_of_ulpDistance? hq hr he
    have hf' := toNat_of_ulpDistance? hp hr hf
    omega

/-! ### Nearness -/

theorem near_comm (x y : Binary64) : x.near y = y.near x := by
  rw [near, near, ulpDistance?_comm]

/-- Two numbers are near if at most four steps lie between them. -/
theorem near_iff_of_place? (hx : x.place? = some p) (hy : y.place? = some q) :
    x.near y = true ↔ (p - q).natAbs ≤ 4 := by
  obtain ⟨d, hd, hvalue, -⟩ := exists_ulpDistance? hx hy
  rw [near, hd, ← hvalue, decide_eq_true_iff]
  exact UInt64.le_iff_toNat_le

/-- Two numbers are near if at most four steps lead from one to the other. -/
theorem near_iff_steps_le : x.near y = true ↔ x ≠ nan ∧ y ≠ nan ∧ steps x y ≤ 4 := by
  by_cases h : x = nan ∨ y = nan
  · refine iff_of_false (fun hnear => ?_) fun hsteps => h.elim hsteps.1 hsteps.2.1
    rw [near, ulpDistance?_eq_none_iff.mpr h] at hnear
    exact Bool.false_ne_true hnear
  · obtain ⟨hx, hy⟩ := not_or.mp h
    obtain ⟨p, hp⟩ := exists_place? hx
    obtain ⟨q, hq⟩ := exists_place? hy
    rw [near_iff_of_place? hp hq, and_iff_right hx, and_iff_right hy, steps_eq hp hq]
    exact Nat.cast_le.symm

end Binary64

end Formula
