import Formula.Decimal.Basic
import Mathlib.Data.List.Induction
import Mathlib.Data.List.TakeWhile
import Mathlib.Data.Nat.Digits.Defs
import Mathlib.Tactic.Ring

/-!
# Digits

How large a number is of which the digits are counted, and the number that digits in two rows
denote. With these a decimal that is written with a point reads back as it is
(`Decimal.read?_plain`), and one that is written without a point as the whole number that it is
(`Numeral.readInt?_digits`).
-/

namespace Formula

namespace Numeral

theorem digitCount_pos (n : Nat) : 0 < digitCount n := by
  rw [digitCount]
  split <;> omega

/-- A number is below the power of ten with as many zeros as it has digits. -/
theorem lt_ten_pow_digitCount (n : Nat) : n < 10 ^ digitCount n := by
  fun_induction digitCount n with
  | case1 n hn => simpa using hn
  | case2 n hn ih =>
    rw [Nat.pow_succ]
    omega

/-- A number other than zero is no smaller than its first digit counts at least. -/
theorem ten_pow_le {n : Nat} (hn : n ≠ 0) : 10 ^ (digitCount n - 1) ≤ n := by
  fun_induction digitCount n with
  | case1 n _ =>
    rw [Nat.sub_self, Nat.pow_zero]
    omega
  | case2 n h ih =>
    have hpos := digitCount_pos (n / 10)
    obtain ⟨k, hk⟩ := Nat.exists_eq_succ_of_ne_zero (Nat.ne_of_gt hpos)
    have hle := ih (by omega)
    rw [hk, Nat.succ_eq_add_one, Nat.add_sub_cancel] at hle
    rw [hk, Nat.succ_eq_add_one, Nat.add_sub_cancel, Nat.pow_succ]
    omega

/-- A number below a power of ten has no more digits than that, as far as there are any. -/
theorem digitCount_le {n k : Nat} (hk : 0 < k) (hn : n < 10 ^ k) : digitCount n ≤ k := by
  by_cases hzero : n = 0
  · rw [hzero, digitCount, if_pos (by decide)]
    exact hk
  · have hlt : 10 ^ (digitCount n - 1) < 10 ^ k := Nat.lt_of_le_of_lt (ten_pow_le hzero) hn
    have := (Nat.pow_lt_pow_iff_right (by decide)).mp hlt
    omega

/-- The value of a row of digits is that of its digits in base ten, the last digit first. -/
theorem value_eq_ofDigits (cs : List Char) :
    value cs = Nat.ofDigits 10 (cs.reverse.map fun c => c.toNat - '0'.toNat) := by
  induction cs using List.reverseRecOn with
  | nil => rfl
  | append_singleton cs c ih =>
    rw [value_append_singleton, List.reverse_concat, List.map_cons, Nat.ofDigits_cons, ← ih,
      Nat.add_comm, Nat.mul_comm]
    rfl

/-- The number that two rows of digits denote one behind the other. -/
theorem value_append (cs ds : List Char) :
    value (cs ++ ds) = value cs * 10 ^ ds.length + value ds := by
  induction ds using List.reverseRecOn with
  | nil => simp [value]
  | append_singleton ds d ih =>
    rw [← List.append_assoc, value_append_singleton, value_append_singleton, ih,
      List.length_append, List.length_singleton, Nat.pow_succ]
    ring

/-- Zeros in front of digits change nothing. -/
theorem value_replicate_append (k : Nat) (cs : List Char) :
    value (List.replicate k '0' ++ cs) = value cs := by
  have hzeros : value (List.replicate k '0') = 0 := by
    induction k with
    | zero => rfl
    | succ k ih => rw [List.replicate_succ', value_append_singleton, ih]; rfl
  rw [value_append, hzeros, Nat.zero_mul, Nat.zero_add]

theorem digits_ne_nil (n : Nat) : digits n ≠ [] := by
  rw [digits]
  split <;> simp

theorem read?_digits (n : Nat) : read? (digits n) = some n := by
  rw [read?, if_pos ⟨digits_ne_nil n, List.all_eq_true.mpr fun c hc => isDigit_of_mem_digits hc⟩,
    value_digits]

/-- The digits of a whole number read back as it. -/
theorem readInt?_digits (n : Nat) : readInt? (digits n) = some (n : Int) := by
  have hsign : ∀ c ∈ digits n, c ≠ '+' ∧ c ≠ '-' := by
    refine fun c hc => ⟨?_, ?_⟩
    · rintro rfl
      exact absurd (isDigit_of_mem_digits hc) (by decide)
    · rintro rfl
      exact absurd (isDigit_of_mem_digits hc) (by decide)
  rw [readInt?.eq_def]
  split
  · next hcs => exact absurd rfl (hsign '+' (hcs ▸ List.mem_cons_self)).1
  · next hcs => exact absurd rfl (hsign '-' (hcs ▸ List.mem_cons_self)).2
  · rw [read?_digits]
    rfl

end Numeral

namespace Decimal

variable {d : Decimal}

private theorem isDigit_of_mem_padded {width n : Nat} {c : Char} (h : c ∈ padded width n) :
    c.isDigit = true := by
  obtain h | h := List.mem_append.mp h
  · rw [(List.mem_replicate.mp h).2]
    rfl
  · exact Numeral.isDigit_of_mem_digits h

private theorem length_padded {width n : Nat} (hw : 0 < width) (hn : n < 10 ^ width) :
    (padded width n).length = width := by
  have hle := Numeral.digitCount_le hw hn
  rw [padded, List.length_append, List.length_replicate, Numeral.length_digits]
  omega

/-- Padding a numeral does not change what it denotes. -/
private theorem value_padded (width n : Nat) : Numeral.value (padded width n) = n := by
  rw [padded, Numeral.value_replicate_append, Numeral.value_digits]

/-- Every character of a plain decimal is a digit or the point. -/
theorem isDigit_or_eq_of_mem_plain {c : Char} (h : c ∈ d.plain) : c.isDigit = true ∨ c = '.' := by
  rw [plain] at h
  split at h
  · exact .inl (Numeral.isDigit_of_mem_digits h)
  · obtain h | h := List.mem_append.mp h
    · exact .inl (Numeral.isDigit_of_mem_digits h)
    · obtain rfl | h := List.mem_cons.mp h
      · exact .inr rfl
      · exact .inl (isDigit_of_mem_padded h)

/-- The whole number that a decimal without places behind the point is. -/
def whole (d : Decimal) : Nat := d.coefficient * 10 ^ d.exponent.toNat

/-- A decimal without places behind the point is written with digits alone. -/
theorem plain_of_nonneg (h : 0 ≤ d.exponent) : d.plain = Numeral.digits d.whole := by
  rw [plain, if_pos h, whole]

/-- The digits in front of the point and behind it. -/
theorem plain_of_neg (h : d.exponent < 0) : d.plain =
    Numeral.digits (d.coefficient / 10 ^ (-d.exponent).toNat) ++
      '.' :: padded (-d.exponent).toNat (d.coefficient % 10 ^ (-d.exponent).toNat) := by
  rw [plain, if_neg (by omega)]

/-- **A decimal that is written with a point reads back as it is.** -/
theorem read?_plain (h : d.exponent < 0) : read? d.plain = some d := by
  obtain ⟨c, e⟩ := d
  obtain ⟨k, rfl⟩ : ∃ k : Nat, e = -(k : Int) := ⟨(-e).toNat, by dsimp only at h; omega⟩
  have hk : 0 < k := by dsimp only at h; omega
  have hdigits : ∀ x ∈ Numeral.digits (c / 10 ^ k), x.isDigit = true := fun x hx =>
    Numeral.isDigit_of_mem_digits hx
  have hpadded : ∀ x ∈ padded k (c % 10 ^ k), x.isDigit = true := fun x hx =>
    isDigit_of_mem_padded hx
  have hlength : (padded k (c % 10 ^ k)).length = k :=
    length_padded hk (Nat.mod_lt _ (Nat.pow_pos (by decide)))
  rw [plain_of_neg h, Int.neg_neg, Int.toNat_natCast, read?,
    List.takeWhile_append_of_pos hdigits, List.dropWhile_append_of_pos hdigits]
  have htake : ('.' :: padded k (c % 10 ^ k)).takeWhile Char.isDigit = [] := rfl
  have hdrop : ('.' :: padded k (c % 10 ^ k)).dropWhile Char.isDigit =
      '.' :: padded k (c % 10 ^ k) := rfl
  have hvalue : Numeral.value (Numeral.digits (c / 10 ^ k) ++ padded k (c % 10 ^ k)) = c := by
    rw [Numeral.value_append, Numeral.value_digits, value_padded, hlength, Nat.div_add_mod']
  simp only [htake, hdrop, List.append_nil, splitFraction, List.takeWhile_eq_self_iff.mpr hpadded,
    List.dropWhile_eq_nil_iff.mpr hpadded, readExponent?, Option.map_some, hvalue, hlength]
  rw [if_neg fun hnil => Numeral.digits_ne_nil _ hnil.1]
  simp

end Decimal

end Formula
