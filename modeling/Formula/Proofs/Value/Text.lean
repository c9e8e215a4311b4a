import Formula.Proofs.Binary64.Integral
import Formula.Proofs.Decimal.Shortest
import Formula.Token.Lexeme
import Formula.Value.Literal
import Formula.Value.Order

/-!
# The texts of values as literals

The text of a number is a row of digits, perhaps with a point among them, behind a minus sign if
the number is negative. The row alone is a literal: digits are read as the integer that they
denote (`Value.ofLiteral_digits`), and a shortest decimal with a point as the number that it was
made from (`Value.ofLiteral_shortest`).

An integral number is written with digits alone. They may denote another integer, but one that
is widened to the number (`Binary64.compare?_ofInt_printed`), and below `2 ^ 54 + 8` they denote
its own value (`Binary64.Magnitude.printed_of_lt`).
-/

namespace Formula

open Binary64 (Magnitude signText signed)

variable {cs : List Char} {m : Magnitude} {negative : Bool} {k : Nat} {v : Value}

/-! ### Signs -/

/-- An integer is written with its sign and the digits of its magnitude. -/
theorem Numeral.ofInt_eq (z : Int) : ofInt z = signText (decide (z < 0)) ++ digits z.natAbs := by
  rw [ofInt]
  split
  · next h =>
    rw [decide_eq_true h]
    rfl
  · next h =>
    rw [decide_eq_false h]
    rfl

/-- Digits behind a sign denote the number with this sign. -/
theorem Numeral.readInt?_signText (negative : Bool) (k : Nat) :
    readInt? (signText negative ++ digits k) = some (signed negative k) := by
  obtain _ | _ := negative
  · exact readInt?_digits k
  · change readInt? ('-' :: digits k) = some (signed true k)
    rw [readInt?, read?_digits]
    rfl

/-- A magnitude of sixty-three bits with a sign is an integer of sixty-four. -/
theorem exists_toInt_eq_signed (negative : Bool) (hk : k < 2 ^ 63) :
    ∃ n : Int64, n.toInt = signed negative k := by
  have hbounds : -2 ^ 63 ≤ signed negative k ∧ signed negative k < 2 ^ 63 := by
    rw [signed]
    split <;> omega
  exact ⟨Int64.ofInt (signed negative k), Int64.toInt_ofInt_of_le hbounds.1 hbounds.2⟩

/-! ### Rows of digits and points -/

theorem Lexeme.isNumeric_of_isDigit {c : Char} (h : c.isDigit = true) : isNumeric c = true := by
  rw [isNumeric, h, Bool.true_or]

/-- A decimal is written with digits and a point. -/
theorem Decimal.isNumeric_of_mem_plain {d : Decimal} {c : Char} (h : c ∈ d.plain) :
    Lexeme.isNumeric c = true := by
  obtain hc | rfl := isDigit_or_eq_of_mem_plain h
  · exact Lexeme.isNumeric_of_isDigit hc
  · rfl

theorem Decimal.plain_ne_nil (d : Decimal) : d.plain ≠ [] := by
  rw [plain]
  split
  · exact Numeral.digits_ne_nil _
  · simp

namespace Value

/-- A row of digits and points is not one of the two words. -/
theorem ofLiteral?_of_isNumeric (h : ∀ c ∈ cs, Lexeme.isNumeric c = true) :
    ofLiteral? (String.ofList cs) =
      if hasFloatMark cs then (readFloat? cs).map float else (readInteger? cs).map integer := by
  have hword : ∀ text : String, text.toList.any (!Lexeme.isNumeric ·) = true →
      String.ofList cs ≠ text := by
    rintro text htext rfl
    obtain ⟨c, hc, hnot⟩ := List.any_eq_true.mp htext
    rw [String.toList_ofList] at hc
    rw [h c hc] at hnot
    exact absurd hnot (by decide)
  rw [ofLiteral?, if_neg (hword _ (by decide)), if_neg (hword _ (by decide)), String.toList_ofList]

/-- Digits are a literal for the integer that they denote. -/
theorem ofLiteral_digits {n : Int64} (h : n.toInt = k) :
    ofLiteral (String.ofList (Numeral.digits k)) = .ok (integer n) := by
  have hmark : ¬hasFloatMark (Numeral.digits k) = true := by
    intro hmark
    obtain ⟨c, hc, hc'⟩ := List.any_eq_true.mp hmark
    have hdigit := Numeral.isDigit_of_mem_digits hc
    obtain rfl | rfl : c = '.' ∨ c = 'e' := by simpa using hc'
    · exact absurd hdigit (by decide)
    · exact absurd hdigit (by decide)
  have hread : readInteger? (Numeral.digits k) = some n := by
    rw [readInteger?, Numeral.readInt?_digits, Option.bind_some, ← h, Integer.ofInt?_toInt]
  rw [ofLiteral, ofLiteral?_of_isNumeric fun c hc =>
    Lexeme.isNumeric_of_isDigit (Numeral.isDigit_of_mem_digits hc), if_neg hmark, hread]
  rfl

/-- A decimal that is written with a point is a literal for the nearest binary number. -/
theorem ofLiteral_plain {d : Decimal} (h : d.exponent < 0) :
    ofLiteral (String.ofList d.plain) = .ok (float d.toBinary64) := by
  have hmark : hasFloatMark d.plain = true := by
    refine List.any_eq_true.mpr ⟨'.', ?_, rfl⟩
    rw [Decimal.plain_of_neg h]
    exact List.mem_append_right _ List.mem_cons_self
  have hread : readFloat? d.plain = some d.toBinary64 := by
    obtain ⟨c, cs, hcs⟩ := List.exists_cons_of_ne_nil d.plain_ne_nil
    have hc : (c.isDigit || c == '.') = true :=
      Decimal.isNumeric_of_mem_plain (hcs ▸ List.mem_cons_self)
    rw [hcs, readFloat?, if_pos hc, ← hcs, Decimal.read?_plain h]
    rfl
  rw [ofLiteral, ofLiteral?_of_isNumeric fun c hc => Decimal.isNumeric_of_mem_plain hc,
    if_pos hmark, hread]
  rfl

/-- The shortest decimal of a magnitude that is not integral is a literal for the magnitude. -/
theorem ofLiteral_shortest (hm : m.units ≠ 0) (h : m.shortest.exponent < 0) :
    ofLiteral (String.ofList m.shortest.plain) = .ok (float (.finite false m)) := by
  rw [ofLiteral_plain h, Magnitude.toBinary64_shortest hm]

end Value

/-! ### Integral numbers -/

namespace Binary64

/-- A number has the value of an integer if it is integral and not too large. -/
theorem toInt64?_eq_some_iff {n : Int64} : (finite negative m).toInt64? = some n ↔
    unitsPerOne ∣ m.units ∧ n.toInt = signed negative m.truncated := by
  rw [toInt64?_finite]
  split
  · next h =>
    rw [and_iff_right h]
    exact ⟨fun hn => Integer.toInt_of_ofInt? hn, fun hn => hn ▸ Integer.ofInt?_toInt n⟩
  · next h => exact iff_of_false (Option.some_ne_none n).symm fun hn => h hn.1

/-- The whole number that is printed for an integral magnitude. -/
def Magnitude.printed (m : Magnitude) : Nat := if m.units = 0 then 0 else m.shortest.whole

/-- An integral number is written with its sign and digits alone. -/
theorem text_of_dvd (h : unitsPerOne ∣ m.units) (negative : Bool) : (finite negative m).text =
    String.ofList (signText negative ++ Numeral.digits m.printed) := by
  rw [text, Magnitude.printed]
  split
  · rw [Numeral.digits, if_pos (by decide)]
    rfl
  · next hm => rw [Decimal.plain_of_nonneg ((Magnitude.exponent_shortest_nonneg_iff hm).mpr h)]

/-- The digits of a number below a power of two denote a number below it. -/
theorem Magnitude.printed_lt (h : unitsPerOne ∣ m.units) (hlt : m.truncated < 2 ^ k) :
    m.printed < 2 ^ k := by
  rw [printed]
  split
  · exact Nat.two_pow_pos k
  · next hm => exact whole_shortest_lt hm ((exponent_shortest_nonneg_iff hm).mpr h) hlt

/-- Below `2 ^ 54 + 8` integral numbers are printed exactly. -/
theorem Magnitude.printed_of_lt (h : unitsPerOne ∣ m.units) (hlt : m.truncated < 2 ^ 54 + 8) :
    m.printed = m.truncated := by
  rw [printed]
  split
  · next hm => rw [truncated, hm, Nat.zero_div]
  · next hm => exact whole_shortest_of_lt hm h hlt

private theorem ofInt_zero : ofInt 0 = .finite false .zero := by
  rw [ofInt, ofNat, Int.natAbs_zero, Nat.zero_mul]
  exact nearest_units false .zero

private theorem compare?_finite_self :
    (finite negative m).compare? (finite negative m) = some .eq := by
  rw [compare?, compare_eq_iff_eq.mpr rfl]

/-- What is printed is rounded to the number, which has the sign of zero by itself. -/
theorem compare?_ofInt_printed (h : unitsPerOne ∣ m.units) (negative : Bool) :
    (ofInt (signed negative m.printed)).compare? (finite negative m) = some .eq := by
  rw [Magnitude.printed]
  split
  · next hm =>
    have hzero : signed negative 0 = 0 := by cases negative <;> rfl
    rw [hzero, ofInt_zero, compare?, hm]
    cases negative <;> rfl
  · next hm =>
    have hnonneg := (Magnitude.exponent_shortest_nonneg_iff hm).mpr h
    have hnearest := Magnitude.ofNat_whole_shortest hm hnonneg negative
    have hwhole := Magnitude.whole_shortest_ne_zero hm hnonneg
    rw [ofInt, decide_signed_lt_zero negative hwhole, natAbs_signed, hnearest,
      compare?_finite_self]

end Binary64

/-! ### Values with a text that can be read -/

namespace Value

/-- The values whose texts can be read: the truth values, the integers but the least one, and the
finite numbers below `2 ^ 63`. -/
def Legible : Value → Prop
  | boolean _ => True
  | integer n => n ≠ Int64.minValue
  | float (.finite _ m) => m.truncated < 2 ^ 63
  | float _ => False

instance : DecidablePred Legible
  | boolean _ => .isTrue trivial
  | integer n => inferInstanceAs (Decidable (n ≠ Int64.minValue))
  | float (.finite _ m) => inferInstanceAs (Decidable (m.truncated < 2 ^ 63))
  | float (.infinite _) => .isFalse id
  | float .nan => .isFalse id

theorem equals_self (h : v.Legible) : v.equals v = true := by
  have horder : v.compare? v = some .eq := by
    cases v with
    | boolean b => cases b <;> rfl
    | integer n => exact congrArg some (compare_eq_iff_eq.mpr rfl)
    | float x =>
      cases x with
      | finite negative m => exact Binary64.compare?_finite_self
      | infinite negative => exact absurd h id
      | nan => exact absurd h id
  rw [equals, horder]
  rfl

end Value

end Formula
