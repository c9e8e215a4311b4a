import Formula.Proofs.Binary64.Monotone
import Formula.Value.Order

/-!
# The order of values of several types

Two integers are compared exactly, and an integer that meets a floating-point number is rounded
first. One order does for both kinds of comparison: that of the places at which the values stand
when all of them are widened (`Value.Comparand.place?`). A value below another one never stands
behind it, because rounding keeps the order, and the two can share a place only if they are
integers (`Value.Comparand.places_of_lt`). Conversely a value that stands in front of another one is
below it, be they integers or not (`Value.Comparand.compare?_of_place_lt`).

Equality is not transitive, for two integers may round to one number and yet differ. What is below
or equal to a value is therefore related to what that value is below or equal to, but possibly only
as equal (`Value.Comparand.compare?_of_lt_of_eq`).
-/

namespace Formula.Value

namespace Comparand

variable {a b c : Comparand} {p q : Int}

/-- The place of the value among the floating-point numbers when it is widened. -/
def place? (a : Comparand) : Option Int := a.toFloat.place?

/-- Only two integers are not compared as floating-point numbers. -/
theorem compare?_cases (a b : Comparand) :
    (∃ m n, a = integer m ∧ b = integer n) ∨ a.compare? b = a.toFloat.compare? b.toFloat := by
  cases a with
  | float x => exact .inr rfl
  | integer m =>
    cases b with
    | float y => exact .inr rfl
    | integer n => exact .inl ⟨m, n, rfl, rfl⟩

theorem compare?_integer (m n : Int64) :
    (integer m).compare? (integer n) = some (compare m.toInt n.toInt) := rfl

private theorem place?_integer (n : Int64) :
    (integer n).place? = some (Binary64.integerPlace n.toInt) := Binary64.place?_ofInt64 n

private theorem place?_eq_none_iff : a.place? = none ↔ a = float .nan := by
  cases a with
  | integer n => simp [place?_integer]
  | float x => rw [place?, toFloat, Binary64.place?_eq_none_iff, float.injEq]

/-! ### Order and places -/

/-- What stands in front is below. -/
theorem compare?_of_place_lt (ha : a.place? = some p) (hb : b.place? = some q) (h : p < q) :
    a.compare? b = some .lt := by
  obtain ⟨m, n, rfl, rfl⟩ | hfloat := compare?_cases a b
  · rw [place?_integer, Option.some_inj] at ha hb
    subst ha hb
    have hlt : m.toInt < n.toInt := not_le.mp fun hle => h.not_ge (Binary64.integerPlace_mono hle)
    rw [compare?_integer, compare_lt_iff_lt.mpr hlt]
  · rw [hfloat, Binary64.compare?_of_place? ha hb, compare_lt_iff_lt.mpr h]

/-- What is below does not stand behind, and if it stands at the same place both are integers. -/
theorem places_of_lt (h : a.compare? b = some .lt) :
    ∃ p q, a.place? = some p ∧ b.place? = some q ∧
      (p < q ∨ p = q ∧ ∃ m n, a = integer m ∧ b = integer n ∧ m.toInt < n.toInt) := by
  obtain ⟨m, n, rfl, rfl⟩ | hfloat := compare?_cases a b
  · rw [compare?_integer, Option.some_inj, compare_lt_iff_lt] at h
    refine ⟨_, _, place?_integer m, place?_integer n, ?_⟩
    exact (Binary64.integerPlace_mono h.le).lt_or_eq.imp_right fun heq => ⟨heq, m, n, rfl, rfl, h⟩
  · rw [hfloat, Binary64.compare?_eq_map₂, Option.map₂_eq_some_iff] at h
    obtain ⟨p, q, ha, hb, hlt⟩ := h
    exact ⟨p, q, ha, hb, .inl (compare_lt_iff_lt.mp hlt)⟩

/-- Equal values stand at one place. -/
theorem place_of_eq (h : a.compare? b = some .eq) :
    ∃ p, a.place? = some p ∧ b.place? = some p := by
  obtain ⟨m, n, rfl, rfl⟩ | hfloat := compare?_cases a b
  · rw [compare?_integer, Option.some_inj, compare_eq_iff_eq] at h
    exact ⟨_, place?_integer m, h ▸ place?_integer n⟩
  · rw [hfloat, Binary64.compare?_eq_map₂, Option.map₂_eq_some_iff] at h
    obtain ⟨p, q, ha, hb, heq⟩ := h
    obtain rfl := compare_eq_iff_eq.mp heq
    exact ⟨p, ha, hb⟩

/-- Values at one place are equal, or both are integers. -/
theorem compare?_of_place_eq (ha : a.place? = some p) (hb : b.place? = some p) :
    (∃ m n, a = integer m ∧ b = integer n) ∨ a.compare? b = some .eq := by
  refine (compare?_cases a b).imp_right fun hfloat => ?_
  rw [hfloat, Binary64.compare?_of_place? ha hb, compare_eq_iff_eq.mpr rfl]

/-! ### Laws of the order -/

/-- Only with what is no number there is no comparison. -/
private theorem compare?_eq_none_iff : a.compare? b = none ↔ a = float .nan ∨ b = float .nan := by
  rw [← place?_eq_none_iff, ← place?_eq_none_iff]
  obtain ⟨m, n, rfl, rfl⟩ | hfloat := compare?_cases a b
  · simp [compare?_integer, place?_integer]
  · rw [hfloat, Binary64.compare?_eq_map₂, Option.map₂_eq_none_iff]
    rfl

private theorem compare?_swap (a b : Comparand) :
    b.compare? a = (a.compare? b).map Ordering.swap := by
  cases a with
  | float x => cases b <;> exact Binary64.compare?_swap _ _
  | integer m =>
    cases b with
    | float y => exact Binary64.compare?_swap _ _
    | integer n => exact congrArg some Std.OrientedOrd.eq_swap

private theorem compare?_self (h : a ≠ float .nan) : a.compare? a = some .eq := by
  cases a with
  | integer n => rw [compare?_integer, compare_eq_iff_eq.mpr rfl]
  | float x =>
    obtain ⟨p, hp⟩ := Binary64.exists_place? fun hx : x = .nan => h (congrArg float hx)
    have hplace : (float x).place? = some p := hp
    obtain ⟨m, -, hx, -⟩ | heq := compare?_of_place_eq hplace hplace
    · exact absurd hx Comparand.noConfusion
    · exact heq

/-- Being below is transitive, also from integers over floats to integers. -/
private theorem compare?_lt_trans (hab : a.compare? b = some .lt) (hbc : b.compare? c = some .lt) :
    a.compare? c = some .lt := by
  obtain ⟨p, q, ha, hb, h⟩ := places_of_lt hab
  obtain ⟨q', r, hb', hc, h'⟩ := places_of_lt hbc
  obtain rfl : q = q' := Option.some.inj (hb.symm.trans hb')
  obtain h | ⟨rfl, m, n, rfl, rfl, hmn⟩ := h
  · have hlt : p < r := by omega
    exact compare?_of_place_lt ha hc hlt
  · obtain h' | ⟨-, n', k, hn, rfl, hnk⟩ := h'
    · exact compare?_of_place_lt ha hc h'
    · -- all three stand at one place, and are compared exactly
      obtain rfl := integer.inj hn
      rw [compare?_integer, compare_lt_iff_lt.mpr (hmn.trans hnk)]

/-- What is below a number is below its equals or equal to them. -/
theorem compare?_of_lt_of_eq (hab : a.compare? b = some .lt) (hbc : b.compare? c = some .eq) :
    a.compare? c = some .lt ∨ a.compare? c = some .eq := by
  obtain ⟨p, q, ha, hb, h⟩ := places_of_lt hab
  obtain ⟨q', hb', hc⟩ := place_of_eq hbc
  obtain rfl : q = q' := Option.some.inj (hb.symm.trans hb')
  obtain h | ⟨rfl, m, n, rfl, rfl, hmn⟩ := h
  · exact .inl (compare?_of_place_lt ha hc h)
  · obtain ⟨-, k, -, rfl⟩ | heq := compare?_of_place_eq ha hc
    · rw [compare?_integer, Option.some_inj, compare_eq_iff_eq] at hbc
      rw [compare?_integer, ← hbc, compare_lt_iff_lt.mpr hmn]
      exact .inl rfl
    · exact .inr heq

/-- The equals of what is below a number are below it or equal to it. -/
private theorem compare?_of_eq_of_lt (hab : a.compare? b = some .eq)
    (hbc : b.compare? c = some .lt) :
    a.compare? c = some .lt ∨ a.compare? c = some .eq := by
  obtain ⟨p, ha, hb⟩ := place_of_eq hab
  obtain ⟨p', q, hb', hc, h⟩ := places_of_lt hbc
  obtain rfl : p = p' := Option.some.inj (hb.symm.trans hb')
  obtain h | ⟨rfl, m, n, rfl, rfl, hmn⟩ := h
  · exact .inl (compare?_of_place_lt ha hc h)
  · obtain ⟨k, -, rfl, -⟩ | heq := compare?_of_place_eq ha hc
    · rw [compare?_integer, Option.some_inj, compare_eq_iff_eq] at hab
      rw [compare?_integer, hab, compare_lt_iff_lt.mpr hmn]
      exact .inl rfl
    · exact .inr heq

end Comparand

/-! ### Values -/

variable {a b c : Value}

private theorem comparand_eq_nan_iff : a.comparand = .float .nan ↔ a = float .nan := by
  cases a <;> simp [comparand]

/-- A value is widened as what it is compared by. -/
theorem toFloat_comparand (a : Value) : a.comparand.toFloat = a.toFloat := by
  cases a <;> rfl

/-- What holds of the order of three values. -/
structure Ordered (a b c : Value) : Prop where
  swap : b.compare? a = (a.compare? b).map Ordering.swap
  eq_none_iff : a.compare? b = none ↔ a = float .nan ∨ b = float .nan
  self : a ≠ float .nan → a.compare? a = some .eq
  lt_trans : a.compare? b = some .lt → b.compare? c = some .lt → a.compare? c = some .lt
  lt_of_lt_of_eq : a.compare? b = some .lt → b.compare? c = some .eq →
    a.compare? c = some .lt ∨ a.compare? c = some .eq
  lt_of_eq_of_lt : a.compare? b = some .eq → b.compare? c = some .lt →
    a.compare? c = some .lt ∨ a.compare? c = some .eq

/-- All laws of the order hold of any three values. -/
theorem ordered (a b c : Value) : Ordered a b c where
  swap := Comparand.compare?_swap _ _
  eq_none_iff := by
    rw [← comparand_eq_nan_iff, ← comparand_eq_nan_iff]
    exact Comparand.compare?_eq_none_iff
  self h := Comparand.compare?_self (mt comparand_eq_nan_iff.mp h)
  lt_trans := Comparand.compare?_lt_trans
  lt_of_lt_of_eq := Comparand.compare?_of_lt_of_eq
  lt_of_eq_of_lt := Comparand.compare?_of_eq_of_lt

end Formula.Value
