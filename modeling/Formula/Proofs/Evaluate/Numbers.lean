import Formula.Proofs.Evaluate.Printing
import Formula.Proofs.Value.Grammar

/-!
# Numbers in formulas

The rule for numbers takes more for a word than numbers: `1.2.3` and `1e-` are words by it. The
grammar of literals alone decides what such a word is evaluated to (`evaluate_of_number`). It is an
integer if it consists of digits and their value fits, because no sign in front belongs to it, and a
floating-point number if it has the form of one with a small `e` (`NumberForms`): a capital one
cannot be in a word.
-/

namespace Formula

open Lexeme (isNumeric)

variable {σ ε : Type} {lookup : Lookup σ ε} {l : Lexeme} {w : List Char}

/-- A value is one token, and comes out as it comes in. -/
theorem Rpn.ofTokens_value {t : Token} (hk : t.kind = .value) : ofTokens [t] = .ok [t] :=
  ofTokens_of_reads (Tree.Written.leaf (.inl hk)).reads

/-- A literal alone has the value that it denotes, or its error. -/
theorem Rpn.evaluate_value (lookup : Lookup σ ε) {t : Token} (hk : t.kind = .value) :
    evaluate lookup [t] = .ofParse (Value.ofLiteral t.text) := by
  cases hv : Value.ofLiteral t.text with
  | ok v =>
    rw [evaluate, List.foldlM_cons, push_value lookup hk hv, pure_bind]
    rfl
  | error e =>
    rw [eq_of_ofLiteral_error hv]
    exact evaluate_of_ofLiteral_error lookup hk hv [] []

/-- **A number alone has the value that its text denotes**, or is rejected as a literal. -/
theorem evaluate_of_number (lookup : Lookup σ ε) (h : l.Spells w) (hr : l.rule = .number) :
    evaluate lookup (String.ofList w) = .ofParse (Value.ofLiteral (String.ofList w)) := by
  let word : Word := ⟨w, l, h⟩
  have hcut : Word.Cut [word] := ⟨Lexeme.apart_nil w, trivial⟩
  have htext : Word.text [word] = (String.ofList w).toList := by
    rw [Word.text_cons, Word.text_nil, List.append_nil, String.toList_ofList]
  have hsmall : ∀ c ∈ Word.text [word], c.isUpper = false := by
    rw [htext, String.toList_ofList]
    intro c hc
    obtain hc | rfl | rfl | rfl := h.numeric_or_mark hr c hc
    · exact isUpper_of_isNumeric hc
    all_goals rfl
  have hkind : (word.token 0 none).kind = .value := by
    change (l.token _ _ _).kind = .value
    rw [Lexeme.token, hr]
  have hself : Text.Respelled (Word.text [word]) (String.ofList w).toList :=
    htext ▸ Text.respelled_self _
  have htokens := Word.tokenize_normalize hcut hsmall hself
  rw [evaluate_of_tokenize htokens, Rpn.value]
  change (Evaluation.ofParse (Rpn.ofTokens [word.token 0 none]) >>= fun post =>
    Rpn.evaluate lookup post) = _
  rw [Rpn.ofTokens_value hkind]
  exact (Rpn.evaluate_value lookup hkind).trans (congrArg _ (congrArg _ (word.text_token 0 none)))

/-- What a number is evaluated to. -/
structure NumberForms (lookup : Lookup σ ε) (text : String) : Prop where
  evaluate_eq : evaluate lookup text = .ofParse (Value.ofLiteral text)
  integer_iff : ∀ k s, evaluate lookup text s = (.ok (.integer k), s) ↔
    (∀ c ∈ text.toList, c.isDigit = true) ∧ (Numeral.value text.toList : Int) = k.toInt
  exists_integer_iff : ∀ s, (∃ k, evaluate lookup text s = (.ok (.integer k), s)) ↔
    (∀ c ∈ text.toList, c.isDigit = true) ∧ Numeral.value text.toList ≤ 2 ^ 63 - 1
  /-- There are no other marks of an exponent than a small `e`. -/
  exists_float_iff : ∀ s, (∃ x, evaluate lookup text s = (.ok (.float x), s)) ↔
    ('.' ∈ text.toList ∨ 'e' ∈ text.toList) ∧ text.toList ∈ Decimal.words (· == 'e')

/-- A number is evaluated to the value that its text denotes, and to no other. -/
private theorem evaluate_of_number_iff (h : l.Spells w) (hr : l.rule = .number) {v : Value}
    {s : σ} :
    evaluate lookup (String.ofList w) s = (.ok v, s) ↔
      Value.ofLiteral (String.ofList w) = .ok v := by
  rw [evaluate_of_number lookup h hr, Evaluation.ofParse_eq_ok_iff, and_iff_left rfl]

/-- No sign is in front of a number. -/
theorem unsigned_of_number (h : l.Spells w) (hr : l.rule = .number) :
    ∀ c ∈ w.head?, c ≠ '+' ∧ c ≠ '-' := by
  obtain ⟨c, cs, rfl, hc⟩ := h.head_of_number hr
  rintro _ ⟨⟩
  constructor <;> rintro rfl <;> exact absurd hc (by decide)

/-- Numbers that are integers consist of digits. -/
theorem mem_integers_of_number (h : l.Spells w) (hr : l.rule = .number) :
    ¬('.' ∈ w ∨ 'e' ∈ w) ∧ w ∈ Numeral.integers ↔ ∀ c ∈ w, c.isDigit = true := by
  rw [Numeral.mem_integers_of_head (unsigned_of_number h hr), Numeral.mem_numerals_iff,
    and_iff_right h.ne_nil, and_iff_right_iff_imp]
  rintro hdigits (hmem | hmem)
  · exact absurd (hdigits _ hmem) (by decide)
  · exact absurd (hdigits _ hmem) (by decide)

/-- In a number only a small `e` marks an exponent. -/
theorem mem_words_of_number (h : l.Spells w) (hr : l.rule = .number) :
    w ∈ Decimal.words Decimal.isMark ↔ w ∈ Decimal.words (· == 'e') := by
  constructor
  · refine Decimal.mem_words_of_imp fun c hc hmark => ?_
    obtain rfl | rfl : c = 'e' ∨ c = 'E' := by simpa [Decimal.isMark] using hmark
    · rfl
    · exact absurd (h.numeric_or_mark hr _ hc) (by decide)
  · refine Decimal.mem_words_of_imp fun c _ hmark => ?_
    rw [Decimal.isMark, hmark, Bool.true_or]

/-- **A number has the form of an integer or of a floating-point number**, or no value. -/
theorem numberForms (lookup : Lookup σ ε) (h : l.Spells w) (hr : l.rule = .number) :
    NumberForms lookup (String.ofList w) := by
  obtain ⟨-, hfloat, -, hinteger, hexists, -⟩ := Value.literalForms (String.ofList w)
  have hvalue := Numeral.signedValue_of_head (unsigned_of_number h hr)
  have hfits : Integer.Fits (Numeral.value w) ↔ Numeral.value w ≤ 2 ^ 63 - 1 := by
    rw [Integer.Fits]
    omega
  have hhead : ∃ c ∈ w.head?, isNumeric c = true := by
    obtain ⟨c, cs, rfl, hc⟩ := h.head_of_number hr
    exact ⟨c, rfl, hc⟩
  rw [String.toList_ofList] at hfloat hexists
  refine ⟨evaluate_of_number lookup h hr, fun k s => ?_, fun s => ?_, fun s => ?_⟩
  all_goals simp only [evaluate_of_number_iff h hr, String.toList_ofList]
  · rw [hinteger, String.toList_ofList, ← and_assoc, mem_integers_of_number h hr, hvalue]
  · rw [hexists, ← and_assoc, mem_integers_of_number h hr, hvalue, hfits]
  · rw [hfloat, and_iff_right hhead, mem_words_of_number h hr]

/-- **The grammar of literals**, and what it makes of the words that are cut off by the rule for
numbers. The value of a numeral is that of its digits in base ten. -/
theorem literal_forms (lookup : Lookup σ ε) :
    (∀ cs, Numeral.value cs = Nat.ofDigits 10 (cs.reverse.map fun c => c.toNat - '0'.toNat)) ∧
    (∀ text, Value.LiteralForms text) ∧ ∀ cs l, Lexeme.first? cs = some l → l.rule = .number →
      NumberForms lookup (String.ofList (cs.take l.length)) := by
  refine ⟨Numeral.value_eq_ofDigits, Value.literalForms, fun cs l hfirst hr => ?_⟩
  exact numberForms lookup (Lexeme.spells_of_first? hfirst).1 hr

/-- The ends of the range of integers: the smallest one is a literal, although no single word of a
formula, and above the largest one there is none. -/
theorem literal_forms_at_ends :
    Value.ofLiteral "-9223372036854775808" = .ok (.integer Int64.minValue) ∧
      evaluate (σ := Unit) Lookup.noVariables "9223372036854775807" () =
        (.ok (.integer Int64.maxValue), ()) ∧
      evaluate (σ := Unit) Lookup.noVariables "9223372036854775808" () =
        (.error (.fault (.parse (.invalidLiteral "9223372036854775808"))), ()) := by
  obtain ⟨hvalue, hliteral, hnumber⟩ := literal_forms (σ := Unit) Lookup.noVariables
  -- both rows of digits are cut off whole
  have hforms : ∀ text : String, (Lexeme.first? text.toList).map (fun l => (l.rule, l.length)) =
      some (.number, text.toList.length) → NumberForms (σ := Unit) Lookup.noVariables text := by
    intro text h
    obtain ⟨l, hfirst, hpair⟩ := Option.map_eq_some_iff.mp h
    obtain ⟨hr, hlength⟩ := Prod.mk.inj hpair
    have hforms := hnumber _ l hfirst hr
    rwa [hlength, List.take_length, String.ofList_toList] at hforms
  refine ⟨(hliteral _).integer_iff _ |>.mpr ⟨by decide, ?_, ?_⟩, ?_, ?_⟩
  · exact (Numeral.cons_mem_integers_iff (.inr rfl)).mpr (Numeral.mem_numerals_iff.mpr (by decide))
  · change -(Numeral.value "9223372036854775808".toList : Int) = _
    rw [hvalue]
    decide
  · refine ((hforms _ (by decide +kernel)).integer_iff Int64.maxValue ()).mpr ⟨by decide, ?_⟩
    rw [hvalue]
    decide
  · have hnone : ∀ v, Value.ofLiteral "9223372036854775808" ≠ .ok v := by
      rintro (k | x | b) h
      · have hlarge : Numeral.signedValue "9223372036854775808".toList = 2 ^ 63 := by
          change (Numeral.value "9223372036854775808".toList : Int) = _
          rw [hvalue]
          decide
        obtain ⟨-, -, hfits⟩ := (hliteral _).exists_integer_iff.mp ⟨k, h⟩
        rw [hlarge] at hfits
        exact absurd hfits (by decide)
      · exact absurd ((hliteral _).float_iff.mp ⟨x, h⟩).1 (by decide)
      · exact absurd ((hliteral _).boolean_iff b |>.mp h) (by cases b <;> decide)
    rw [(hforms _ (by decide +kernel)).evaluate_eq, (hliteral _).error_of_ne hnone]
    rfl

end Formula
