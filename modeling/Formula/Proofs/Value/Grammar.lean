import Formula.Proofs.Binary64.Sign
import Formula.Proofs.Lexeme.Language
import Formula.Value.Literal

/-!
# The grammar of literals

What the readers of numbers accept is said with regular languages: an integer is a row of digits
that may have a sign (`Numeral.integers`), and a decimal number a row of digits with at most one
point among them that may have an exponent (`Decimal.words`). The readers accept these texts and no
others (`Numeral.readInt?_eq_some_iff`, `Decimal.isSome_read?_iff`). Reading takes as many digits as
there are, and this is the only way to split a text into its parts, because neither a point nor the
mark of an exponent is a digit.

`Value.LiteralForms` says which of the two readers a literal is given to, and what becomes of it.
-/

namespace Formula

open scoped Computability
open Lexeme (one isNumeric)

variable {w ds : List Char} {c : Char} {n : Nat} {z : Int}

/-! ### Integers -/

namespace Numeral

/-- Rows of digits, the empty one among them: `[0-9]*`. -/
def rows : Language Char := (one Char.isDigit)∗

/-- Rows of at least one digit: `[0-9]+`. -/
def numerals : Language Char := one Char.isDigit * rows

/-- Numerals that may have a sign: `[+-]?[0-9]+`. -/
def integers : Language Char := (1 + one fun c => c == '+' || c == '-') * numerals

/-- The value of a numeral that may have a sign. -/
def signedValue : List Char → Int
  | '+' :: ds => value ds
  | '-' :: ds => -(value ds : Int)
  | ds => value ds

private theorem mem_rows_iff : w ∈ rows ↔ ∀ c ∈ w, c.isDigit = true := Lexeme.mem_kstar_one_iff

theorem mem_numerals_iff : w ∈ numerals ↔ w ≠ [] ∧ ∀ c ∈ w, c.isDigit = true := by
  rw [numerals, Lexeme.mem_one_mul_iff]
  constructor
  · rintro ⟨c, cs, rfl, hc, hcs⟩
    exact ⟨List.cons_ne_nil c cs, List.forall_mem_cons.mpr ⟨hc, mem_rows_iff.mp hcs⟩⟩
  · rintro ⟨hne, hdigits⟩
    obtain ⟨c, cs, rfl⟩ := List.exists_cons_of_ne_nil hne
    obtain ⟨hc, hcs⟩ := List.forall_mem_cons.mp hdigits
    exact ⟨c, cs, rfl, hc, mem_rows_iff.mpr hcs⟩

/-- An integer is a numeral, or a sign and a numeral. -/
private theorem mem_integers_iff : w ∈ integers ↔
    w ∈ numerals ∨ ∃ c ds, (c = '+' ∨ c = '-') ∧ ds ∈ numerals ∧ w = c :: ds := by
  rw [integers, Language.mem_mul]
  constructor
  · rintro ⟨s, hs, ds, hds, rfl⟩
    obtain rfl | ⟨c, hc, rfl⟩ := (Language.mem_add _ _ _).mp hs
    · exact .inl hds
    · exact .inr ⟨c, ds, by simpa using hc, hds, rfl⟩
  · rintro (hw | ⟨c, ds, hc, hds, rfl⟩)
    · exact ⟨[], (Language.mem_add _ _ _).mpr (.inl rfl), w, hw, rfl⟩
    · exact ⟨[c], (Language.mem_add _ _ _).mpr (.inr ⟨c, by simpa using hc, rfl⟩), ds, hds, rfl⟩

/-- Behind a sign only a numeral makes an integer. -/
theorem cons_mem_integers_iff (hc : c = '+' ∨ c = '-') : c :: ds ∈ integers ↔ ds ∈ numerals := by
  have hdigit : c.isDigit = false := by obtain rfl | rfl := hc <;> rfl
  rw [mem_integers_iff]
  constructor
  · rintro (hw | ⟨d, es, -, hes, heq⟩)
    · have hc := (mem_numerals_iff.mp hw).2 c List.mem_cons_self
      exact absurd (hc.symm.trans hdigit) (by decide)
    · rwa [(List.cons.inj heq).2]
  · exact fun hds => .inr ⟨c, ds, hc, hds, rfl⟩

theorem mem_integers_of_head (h : ∀ c ∈ w.head?, c ≠ '+' ∧ c ≠ '-') :
    w ∈ integers ↔ w ∈ numerals := by
  rw [mem_integers_iff]
  refine or_iff_left ?_
  rintro ⟨c, ds, hc, -, rfl⟩
  obtain ⟨hplus, hminus⟩ := h c rfl
  exact hc.elim hplus hminus

theorem signedValue_of_head (h : ∀ c ∈ w.head?, c ≠ '+' ∧ c ≠ '-') : signedValue w = value w := by
  rw [signedValue.eq_def]
  split
  · exact absurd rfl (h '+' rfl).1
  · exact absurd rfl (h '-' rfl).2
  · rfl

private theorem read?_eq_some (h : w ∈ numerals) : read? w = some (value w) := by
  obtain ⟨hne, hdigits⟩ := mem_numerals_iff.mp h
  exact if_pos ⟨hne, List.all_eq_true.mpr hdigits⟩

private theorem read?_eq_none_of_not_mem (h : w ∉ numerals) : read? w = none :=
  if_neg fun hw => h (mem_numerals_iff.mpr ⟨hw.1, List.all_eq_true.mp hw.2⟩)

/-- **The reader of integers accepts numerals that may have a sign**, and finds their value. -/
theorem readInt?_eq_some_iff : readInt? w = some z ↔ w ∈ integers ∧ signedValue w = z := by
  -- all three cases read a numeral and do something to its value
  have hread : ∀ {ds : List Char} (f : Int → Int),
      (read? ds >>= fun n => pure (n : Int)).map f = some z ↔
        ds ∈ numerals ∧ f (value ds) = z := by
    intro ds f
    by_cases hds : ds ∈ numerals
    · rw [read?_eq_some hds, and_iff_right hds]
      exact Option.some_inj
    · rw [read?_eq_none_of_not_mem hds]
      exact iff_of_false (Option.some_ne_none z).symm fun h => hds h.1
  rw [readInt?.eq_def]
  split
  · next ds => rw [hread, cons_mem_integers_iff (.inl rfl), signedValue]
  · next ds => rw [hread, cons_mem_integers_iff (.inr rfl), signedValue]
  · next hplus hminus =>
    have hhead : ∀ c ∈ w.head?, c ≠ '+' ∧ c ≠ '-' := by
      intro c hc
      obtain ⟨ds, rfl⟩ := List.head?_eq_some_iff.mp hc
      exact ⟨fun h => hplus ds (h ▸ rfl), fun h => hminus ds (h ▸ rfl)⟩
    rw [hread, mem_integers_of_head hhead, signedValue_of_head hhead]

private theorem isSome_readInt?_iff : (readInt? w).isSome ↔ w ∈ integers := by
  rw [Option.isSome_iff_exists]
  simp only [readInt?_eq_some_iff, exists_and_left, exists_eq', and_true]

end Numeral

/-! ### Decimal numbers -/

namespace Decimal

/-- The marks of an exponent: the letter of either case. -/
def isMark (c : Char) : Bool := c == 'e' || c == 'E'

/-- An exponent behind one of the given marks, or nothing: `(e[+-]?[0-9]+)?`. -/
def exponents (p : Char → Bool) : Language Char := 1 + one p * Numeral.integers

/-- Digits with at most one point among, before or behind them:
`[0-9]+|[0-9]+.[0-9]*|[0-9]*.[0-9]+`. -/
def mantissas : Language Char :=
  Numeral.numerals + Numeral.numerals * {['.']} * Numeral.rows +
    Numeral.rows * {['.']} * Numeral.numerals

/-- A mantissa and then an exponent behind one of the given marks, or none. -/
def words (p : Char → Bool) : Language Char := mantissas * exponents p

variable {p q : Char → Bool} {whole fraction rest : List Char}

/-- An exponent is missing, or a mark and an integer. -/
private theorem mem_exponents_iff :
    w ∈ exponents p ↔ w = [] ∨ ∃ c cs, w = c :: cs ∧ p c = true ∧ cs ∈ Numeral.integers := by
  rw [exponents, Language.mem_add, Lexeme.mem_one_mul_iff]
  exact or_congr_left (Language.mem_one w)

private theorem mem_pointed_iff {l l' : Language Char} :
    w ∈ l * {['.']} * l' ↔ ∃ whole ∈ l, ∃ fraction ∈ l', w = whole ++ '.' :: fraction := by
  simp only [Language.mem_mul]
  constructor
  · rintro ⟨_, ⟨whole, hwhole, _, rfl, rfl⟩, fraction, hfraction, rfl⟩
    exact ⟨whole, hwhole, fraction, hfraction, List.append_assoc _ _ _⟩
  · rintro ⟨whole, hwhole, fraction, hfraction, rfl⟩
    exact ⟨_, ⟨whole, hwhole, _, rfl, rfl⟩, fraction, hfraction, List.append_assoc _ _ _⟩

/-- A mantissa has a digit on one side of its point, or it has no point. -/
theorem mem_mantissas_iff : w ∈ mantissas ↔ w ∈ Numeral.numerals ∨
    ∃ whole ∈ Numeral.rows, ∃ fraction ∈ Numeral.rows,
      ¬(whole = [] ∧ fraction = []) ∧ w = whole ++ '.' :: fraction := by
  simp only [mantissas, Language.mem_add, mem_pointed_iff, Numeral.mem_numerals_iff,
    Numeral.mem_rows_iff]
  grind

private theorem isSome_readExponent?_iff : (readExponent? w).isSome ↔ w ∈ exponents isMark := by
  rw [mem_exponents_iff]
  cases w with
  | nil => exact iff_of_true rfl (.inl rfl)
  | cons c cs =>
    have hmark : isMark c = true ↔ c = 'e' ∨ c = 'E' := by
      rw [isMark, Bool.or_eq_true, beq_iff_eq, beq_iff_eq]
    rw [readExponent?, or_iff_right (List.cons_ne_nil c cs)]
    split
    · next hc =>
      rw [Numeral.isSome_readInt?_iff]
      constructor
      · exact fun hcs => ⟨c, cs, rfl, hmark.mpr hc, hcs⟩
      · rintro ⟨_, _, heq, -, hds⟩
        rwa [(List.cons.inj heq).2]
    · next hc =>
      refine iff_of_false Bool.false_ne_true ?_
      rintro ⟨d, ds, heq, hd, -⟩
      obtain ⟨rfl, -⟩ := List.cons.inj heq
      exact hc (hmark.mp hd)

/-- Neither a digit nor a point marks an exponent. -/
theorem isNumeric_head?_of_mem_exponents (h : rest ∈ exponents isMark) :
    ∀ c ∈ rest.head?, isNumeric c = false := by
  intro c hc
  obtain rfl | ⟨d, ds, rfl, hd, -⟩ := mem_exponents_iff.mp h
  · cases hc
  · obtain rfl : d = c := Option.some.inj hc
    obtain rfl | rfl : d = 'e' ∨ d = 'E' := by simpa [isMark] using hd
    all_goals rfl

/-- Digits are taken up to what does not begin with one. -/
theorem takeWhile_rows_append (hwhole : whole ∈ Numeral.rows)
    (hrest : ∀ c ∈ rest.head?, c.isDigit = false) :
    (whole ++ rest).takeWhile Char.isDigit = whole ∧
      (whole ++ rest).dropWhile Char.isDigit = rest := by
  have hdigits := Numeral.mem_rows_iff.mp hwhole
  rw [List.takeWhile_append_of_pos hdigits, List.dropWhile_append_of_pos hdigits]
  cases rest with
  | nil => exact ⟨List.append_nil _, rfl⟩
  | cons c cs =>
    have hc : ¬c.isDigit = true := Bool.eq_false_iff.mp (hrest c rfl)
    rw [List.takeWhile_cons_of_neg hc, List.dropWhile_cons_of_neg hc]
    exact ⟨List.append_nil _, rfl⟩

/-- Digits without a point and an exponent are read. -/
theorem isSome_read?_row (hwhole : whole ∈ Numeral.rows) (hne : whole ≠ [])
    (hrest : rest ∈ exponents isMark) : (read? (whole ++ rest)).isSome := by
  have hhead := isNumeric_head?_of_mem_exponents hrest
  have hsplit : splitFraction rest = ([], rest) := by
    rw [splitFraction.eq_def]
    split
    · exact absurd (hhead '.' rfl) (by decide)
    · rfl
  obtain ⟨htake, hdrop⟩ := takeWhile_rows_append hwhole fun c hc =>
    (Bool.or_eq_false_iff.mp (hhead c hc)).1
  rw [read?, htake, hdrop, hsplit]
  dsimp only
  rw [if_neg fun h => hne h.1, Option.isSome_map, isSome_readExponent?_iff]
  exact hrest

/-- Digits with a point and an exponent are read. -/
theorem isSome_read?_pointed (hwhole : whole ∈ Numeral.rows) (hfraction : fraction ∈ Numeral.rows)
    (hne : ¬(whole = [] ∧ fraction = [])) (hrest : rest ∈ exponents isMark) :
    (read? (whole ++ '.' :: (fraction ++ rest))).isSome := by
  have hpoint : ∀ c ∈ ('.' :: (fraction ++ rest)).head?, c.isDigit = false := by
    rintro c ⟨⟩
    rfl
  obtain ⟨htake, hdrop⟩ := takeWhile_rows_append hwhole hpoint
  obtain ⟨htake', hdrop'⟩ := takeWhile_rows_append hfraction fun c hc =>
    (Bool.or_eq_false_iff.mp (isNumeric_head?_of_mem_exponents hrest c hc)).1
  rw [read?, htake, hdrop, splitFraction, htake', hdrop']
  dsimp only
  rw [if_neg hne, Option.isSome_map, isSome_readExponent?_iff]
  exact hrest

private theorem takeWhile_isDigit_mem_rows (w : List Char) :
    w.takeWhile Char.isDigit ∈ Numeral.rows :=
  Numeral.mem_rows_iff.mpr fun _ hc => List.mem_takeWhile_imp hc

/-- What is read is a mantissa in front of an exponent. -/
theorem mem_words_of_read? (h : (read? w).isSome) : w ∈ words isMark := by
  have hwhole := takeWhile_isDigit_mem_rows w
  have hw : w.takeWhile Char.isDigit ++ w.dropWhile Char.isDigit = w :=
    List.takeWhile_append_dropWhile
  rw [read?] at h
  split at h
  next fraction rest hsplit =>
    split at h
    · exact absurd h Bool.false_ne_true
    · next hne =>
      rw [Option.isSome_map, isSome_readExponent?_iff] at h
      rw [splitFraction.eq_def] at hsplit
      split at hsplit
      · next cs hcs =>
        obtain ⟨rfl, rfl⟩ := Prod.mk.inj hsplit
        have hmantissa := mem_mantissas_iff.mpr
          (.inr ⟨_, hwhole, _, takeWhile_isDigit_mem_rows cs, hne, rfl⟩)
        refine Language.mem_mul.mpr ⟨_, hmantissa, _, h, ?_⟩
        rw [List.append_assoc, List.cons_append, List.takeWhile_append_dropWhile, ← hcs, hw]
      · obtain ⟨rfl, rfl⟩ := Prod.mk.inj hsplit
        have hnumeral : w.takeWhile Char.isDigit ∈ Numeral.numerals :=
          Numeral.mem_numerals_iff.mpr ⟨fun hnil => hne ⟨hnil, rfl⟩, Numeral.mem_rows_iff.mp hwhole⟩
        exact Language.mem_mul.mpr ⟨_, mem_mantissas_iff.mpr (.inl hnumeral), _, h, hw⟩

/-- **The reader of decimal numbers accepts mantissas with an exponent behind them.** -/
theorem isSome_read?_iff : (read? w).isSome ↔ w ∈ words isMark := by
  refine ⟨mem_words_of_read?, fun h => ?_⟩
  obtain ⟨m, hm, rest, hrest, rfl⟩ := Language.mem_mul.mp h
  obtain hm | ⟨whole, hwhole, fraction, hfraction, hne, rfl⟩ := mem_mantissas_iff.mp hm
  · obtain ⟨hne, hdigits⟩ := Numeral.mem_numerals_iff.mp hm
    exact isSome_read?_row (Numeral.mem_rows_iff.mpr hdigits) hne hrest
  · rw [List.append_assoc]
    exact isSome_read?_pointed hwhole hfraction hne hrest

/-- Only the marks that are in a text matter. -/
theorem mem_words_of_imp (h : ∀ c ∈ w, p c = true → q c = true) (hw : w ∈ words p) :
    w ∈ words q := by
  obtain ⟨m, hm, rest, hrest, rfl⟩ := Language.mem_mul.mp hw
  refine Language.append_mem_mul hm (mem_exponents_iff.mpr ?_)
  refine (mem_exponents_iff.mp hrest).imp_right ?_
  rintro ⟨c, cs, rfl, hc, hcs⟩
  exact ⟨c, cs, rfl, h c (List.mem_append_right m List.mem_cons_self) hc, hcs⟩

/-- A decimal number is never negative, and never the value that is no number. -/
theorem hasSign_toBinary64 (d : Decimal) : Binary64.HasSign false d.toBinary64 :=
  .ite (Binary64.hasSign_zero _) (.ite .infinite (Binary64.hasSign_nearest _ _ _))

end Decimal

/-! ### Literals -/

namespace Value

variable {text : String} {v : Value} {x : Binary64} {k : Int64}

private theorem hasFloatMark_iff : hasFloatMark w = true ↔ '.' ∈ w ∨ 'e' ∈ w := by
  simp only [hasFloatMark, List.any_eq_true, Bool.or_eq_true, beq_iff_eq]
  constructor
  · rintro ⟨c, hc, rfl | rfl⟩
    · exact .inl hc
    · exact .inr hc
  · rintro (h | h)
    · exact ⟨_, h, .inl rfl⟩
    · exact ⟨_, h, .inr rfl⟩

/-- The reader of floating-point numbers accepts the decimal numbers that begin with a digit or a
point. -/
private theorem isSome_readFloat?_iff : (readFloat? w).isSome ↔
    (∃ c ∈ w.head?, isNumeric c = true) ∧ w ∈ Decimal.words Decimal.isMark := by
  cases w with
  | nil => exact iff_of_false Bool.false_ne_true fun h => by simpa using h.1
  | cons c cs =>
    rw [readFloat?, List.head?_cons]
    split
    · next hc =>
      rw [Option.isSome_map, Decimal.isSome_read?_iff]
      exact (and_iff_right ⟨c, rfl, hc⟩).symm
    · next hc =>
      refine iff_of_false Bool.false_ne_true ?_
      rintro ⟨⟨_, ⟨⟩, hc'⟩, -⟩
      exact hc hc'

/-- What is read of a floating-point number has no negative sign. -/
private theorem hasSign_readFloat? (h : readFloat? w = some x) : Binary64.HasSign false x := by
  cases w with
  | nil => cases h
  | cons c cs =>
    rw [readFloat?] at h
    split at h
    · obtain ⟨d, -, rfl⟩ := Option.map_eq_some_iff.mp h
      exact d.hasSign_toBinary64
    · cases h

private theorem readInteger?_eq_some_iff : readInteger? w = some k ↔
    w ∈ Numeral.integers ∧ Numeral.signedValue w = k.toInt := by
  rw [readInteger?, Option.bind_eq_some_iff]
  constructor
  · rintro ⟨z, hz, hk⟩
    rw [Integer.toInt_of_ofInt? hk]
    exact Numeral.readInt?_eq_some_iff.mp hz
  · exact fun h => ⟨_, Numeral.readInt?_eq_some_iff.mpr h, Integer.ofInt?_toInt k⟩

private theorem ofLiteral_eq_ok_iff : ofLiteral text = .ok v ↔ ofLiteral? text = some v := by
  rw [ofLiteral]
  cases ofLiteral? text with
  | none => simp
  | some u => simp

/-- Of the two readers the marks in a text choose one. -/
theorem ofLiteral?_of_ne (h : ∀ b, text ≠ booleanText b) : ofLiteral? text =
    if hasFloatMark text.toList then (readFloat? text.toList).map float
    else (readInteger? text.toList).map integer := by
  have htrue : text ≠ "true" := h true
  have hfalse : text ≠ "false" := h false
  rw [ofLiteral?, if_neg htrue, if_neg hfalse]

private theorem ofLiteral_booleanText (b : Bool) : ofLiteral (booleanText b) = .ok (boolean b) := by
  cases b <;> rfl

/-- The two words for truth values are the only literals for them. -/
theorem ofLiteral_eq_boolean_iff (b : Bool) :
    ofLiteral text = .ok (boolean b) ↔ text = booleanText b := by
  by_cases hword : ∃ b', text = booleanText b'
  · obtain ⟨b', rfl⟩ := hword
    rw [ofLiteral_booleanText]
    cases b <;> cases b' <;> decide
  · have hne : ∀ b', text ≠ booleanText b' := fun b' h => hword ⟨b', h⟩
    refine iff_of_false (fun h => ?_) (hne b)
    rw [ofLiteral_eq_ok_iff, ofLiteral?_of_ne hne] at h
    split at h <;> simp at h

/-- The words for truth values have a mark in them, and begin with a letter. -/
theorem readFloat?_booleanText (b : Bool) : hasFloatMark (booleanText b).toList = true ∧
    readFloat? (booleanText b).toList = none := by
  cases b <;> decide

/-- A literal with the mark of a floating-point number is left to their reader. -/
private theorem ofLiteral_eq_float_iff : ofLiteral text = .ok (float x) ↔
    hasFloatMark text.toList = true ∧ readFloat? text.toList = some x := by
  by_cases hword : ∃ b, text = booleanText b
  · obtain ⟨b, rfl⟩ := hword
    rw [ofLiteral_booleanText, (readFloat?_booleanText b).2]
    simp
  · rw [ofLiteral_eq_ok_iff, ofLiteral?_of_ne fun b h => hword ⟨b, h⟩]
    split <;> simp_all

/-- A literal without such a mark is left to the reader of integers. -/
private theorem ofLiteral_eq_integer_iff : ofLiteral text = .ok (integer k) ↔
    hasFloatMark text.toList = false ∧ readInteger? text.toList = some k := by
  by_cases hword : ∃ b, text = booleanText b
  · obtain ⟨b, rfl⟩ := hword
    rw [ofLiteral_booleanText, (readFloat?_booleanText b).1]
    simp
  · rw [ofLiteral_eq_ok_iff, ofLiteral?_of_ne fun b h => hword ⟨b, h⟩]
    split <;> simp_all

/-- What a text is a literal for. -/
structure LiteralForms (text : String) : Prop where
  /-- The two words for truth values. -/
  boolean_iff : ∀ b, ofLiteral text = .ok (boolean b) ↔ text = booleanText b
  /-- A text with a point or the letter `e` in it is a floating-point number or nothing. -/
  float_iff : (∃ x, ofLiteral text = .ok (float x)) ↔
    ('.' ∈ text.toList ∨ 'e' ∈ text.toList) ∧ (∃ c ∈ text.toList.head?, isNumeric c = true) ∧
      text.toList ∈ Decimal.words Decimal.isMark
  /-- The number has no sign, and is not the value that is no number. -/
  float_sign : ∀ x, ofLiteral text = .ok (float x) → x ≠ .nan ∧ x.isNegative = false
  /-- Any other text is an integer or nothing. -/
  integer_iff : ∀ k, ofLiteral text = .ok (integer k) ↔
    ¬('.' ∈ text.toList ∨ 'e' ∈ text.toList) ∧ text.toList ∈ Numeral.integers ∧
      Numeral.signedValue text.toList = k.toInt
  /-- The integer has to have sixty-four bits. -/
  exists_integer_iff : (∃ k, ofLiteral text = .ok (integer k)) ↔
    ¬('.' ∈ text.toList ∨ 'e' ∈ text.toList) ∧ text.toList ∈ Numeral.integers ∧
      Integer.Fits (Numeral.signedValue text.toList)
  /-- A text that is none of these is named by the error. -/
  error_of_ne : (∀ v, ofLiteral text ≠ .ok v) → ofLiteral text = .error (.invalidLiteral text)

/-- **Literals have the forms of the grammar.** -/
theorem literalForms (text : String) : LiteralForms text := by
  have hinteger : ∀ k, ofLiteral text = .ok (integer k) ↔
      ¬('.' ∈ text.toList ∨ 'e' ∈ text.toList) ∧ text.toList ∈ Numeral.integers ∧
        Numeral.signedValue text.toList = k.toInt := fun k => by
    rw [ofLiteral_eq_integer_iff, readInteger?_eq_some_iff, ← hasFloatMark_iff,
      Bool.not_eq_true]
  refine ⟨ofLiteral_eq_boolean_iff, ?_, fun x h => ?_, hinteger, ?_, fun h => ?_⟩
  · simp only [ofLiteral_eq_float_iff, exists_and_left, ← Option.isSome_iff_exists,
      isSome_readFloat?_iff, hasFloatMark_iff]
  · have hsign := hasSign_readFloat? (ofLiteral_eq_float_iff.mp h).2
    exact ⟨hsign.ne_nan, hsign.isNegative_eq⟩
  · simp only [hinteger, exists_and_left]
    refine and_congr_right fun _ => and_congr_right fun _ => ⟨?_, fun hfits => ?_⟩
    · rintro ⟨k, hk⟩
      exact hk ▸ Integer.fits_toInt k
    · obtain ⟨k, -, hk⟩ := Integer.exists_ofInt?_of_fits hfits
      exact ⟨k, hk.symm⟩
  · rw [ofLiteral]
    cases hvalue : ofLiteral? text with
    | none => rfl
    | some v => exact absurd (ofLiteral_eq_ok_iff.mpr hvalue) (h v)

end Value

end Formula
