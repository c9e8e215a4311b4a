import Formula.Proofs.Evaluate.Literals
import Formula.Proofs.Expression.Evaluate
import Formula.Proofs.Token.Munch
import Formula.Proofs.Value.Text

/-!
# Texts of values as formulas

The text of a value is a formula. A truth value, an integer and a number that is not integral are
read back from it as they are; an integral number is written without a point and is read as an
integer, the one whose digits are printed (`evaluate_text`). Below `2 ^ 54 + 8` this integer is the
number's own value; from there on it may be another one that is rounded to the number
(`evaluate_text_padded`).

In front of a number the sign is an operator, so that a negative number is read as its magnitude
and negated. This is why the least integer cannot be read: its magnitude has no literal.
-/

namespace Formula

open Binary64 (Magnitude signText signed)

variable {σ ε : Type} {lookup : Lookup σ ε} {cs : List Char} {v : Value} {m : Magnitude}
  {negative : Bool} {k : Nat}

/-! ### Expressions without parentheses around them -/

namespace Expression

/-- Words whose tokens stand for a tree with the value of an expression have this value. -/
theorem evaluate_of_words {e : Expression} {ws : List Word} {x : Option Binding} {tree : Tree}
    {text : String} (hcut : Word.Cut ws) (hsmall : Word.Small ws)
    (htext : Word.text ws = text.toList)
    (hwritten : Tree.Written x tree (Word.tokens 0 none ws))
    (hvalue : tree.postOrder.foldlM (Rpn.push lookup) [] =
      e.value lookup >>= fun v => pure [v]) : evaluate lookup text = e.value lookup := by
  have hself : Text.Respelled (Word.text ws) text.toList := htext ▸ Text.respelled_self _
  rw [evaluate_of_tokenize (Word.tokenize_normalize hcut hsmall hself), Rpn.value,
    Rpn.ofTokens_of_reads hwritten.reads]
  change Rpn.evaluate lookup tree.postOrder = e.value lookup
  rw [Rpn.evaluate, hvalue]
  simp only [bind_assoc, pure_bind]
  exact bind_pure _

/-- The text of an expression has its value. -/
theorem evaluate_render (lookup : Lookup σ ε) (e : Expression) :
    evaluate lookup e.render = e.value lookup := by
  obtain ⟨tree, hstands⟩ := e.readable 0 none
  have hphrase := e.phrase_words
  exact evaluate_of_words hphrase.cut hphrase.small e.text_words hstands.written
    (hstands.evaluates lookup [])

/-- An operator in front of an expression needs no parentheses around the two. -/
theorem evaluate_before (lookup : Lookup σ ε) (op : OperatorSymbol .before) (e : Expression) :
    evaluate lookup (op.entry.symbol ++ e.render) = (before op e).value lookup := by
  have hphrase := e.phrase_words
  -- nothing stands in front of the operator, so that a sign is unary
  have hnone : (none : Option Token).any (·.endsOperand) = false := rfl
  have hcut : Word.Cut (op.word :: e.words) := Word.cut_before op.isNamePart_word hphrase
  have hsmall : Word.Small (op.word :: e.words) :=
    Word.small_cons_iff.mpr ⟨op.isUpper_word, hphrase.small⟩
  obtain ⟨tree, hstands⟩ := e.readable (0 + Token.byteLength op.word.chars)
    (some (op.word.token 0 none))
  have hwritten := Tree.Written.before (op.kind_token hnone 0) (op.provides_token 0 none)
    op.arity_binding.2 hstands.written Binding.forall_mem_none
  refine evaluate_of_words hcut hsmall ?_ hwritten ?_
  · rw [Word.text_cons, e.text_words, String.toList_append]
    rfl
  · rw [value]
    exact foldlM_push_unary (hstands.evaluates lookup [])
      fun v => op.push_token hnone 0 lookup [v] rfl []

end Expression

/-! ### Numbers behind a sign -/

/-- Digits and points in any order are a word by the rule for numbers. -/
theorem Lexeme.mem_numbers_of_isNumeric (hne : cs ≠ []) (h : ∀ c ∈ cs, isNumeric c = true) :
    cs ∈ numbers := by
  obtain ⟨c, cs, rfl⟩ := List.exists_cons_of_ne_nil hne
  obtain ⟨hc, hcs⟩ := List.forall_mem_cons.mp h
  have hpieces : one isNumeric ≤ pieces := le_self_add
  exact mem_one_mul_iff.mpr ⟨c, cs, rfl, hc, kstar_mono hpieces (mem_kstar_one_iff.mpr hcs)⟩

/-- A text that is a word by the rule for numbers is cut off whole and by this rule. -/
private theorem Lexeme.first?_of_mem_numbers (h : cs ∈ numbers) :
    (first? cs).map (fun l => (l.rule, l.length)) = some (.number, cs.length) := by
  have hlongest : Longest cs cs := ⟨List.prefix_rfl, .inr (.inl h), fun _ hv _ => hv.length_le⟩
  obtain ⟨l, hfirst, -, hspells⟩ := hlongest.exists_first?
  rw [hfirst, Option.map_some, Token.rule_of_mem_numbers hspells h, hspells.2]

/-- A row of digits and points that is a literal. -/
def NumberLiteral.ofRow (hne : cs ≠ []) (hcs : ∀ c ∈ cs, Lexeme.isNumeric c = true)
    (hv : Value.ofLiteral (String.ofList cs) = .ok v) : NumberLiteral where
  text := String.ofList cs
  value := v
  isNumber := by
    rw [String.toList_ofList]
    exact Lexeme.first?_of_mem_numbers (Lexeme.mem_numbers_of_isNumeric hne hcs)
  denotes := hv

/-- The minus sign in front of an operand. -/
def OperatorSymbol.minus : OperatorSymbol .before := ⟨⟨"-", .sign .minus⟩, by decide, _, rfl⟩

/-- A literal behind a sign has its value, or the opposite one. -/
theorem evaluate_signText (lookup : Lookup σ ε) {w : Value} (hne : cs ≠ [])
    (hcs : ∀ c ∈ cs, Lexeme.isNumeric c = true)
    (hv : Value.ofLiteral (String.ofList cs) = .ok v)
    (hw : (if negative then Arithmetic.negate v else .ok v) = .ok w) (s : σ) :
    evaluate lookup (String.ofList (signText negative ++ cs)) s = (.ok w, s) := by
  obtain _ | _ := negative
  · obtain rfl : v = w := Except.ok.inj hw
    exact congrFun (Expression.evaluate_render lookup (.number (.ofRow hne hcs hv))) s
  · have htext : String.ofList (signText true ++ cs) =
        OperatorSymbol.minus.entry.symbol ++ String.ofList cs := by
      rw [String.ofList_append]
      rfl
    have happly : OperatorSymbol.minus.binding.operation.apply
        [(NumberLiteral.ofRow hne hcs hv).value] = .ok w := hw
    have hvalue := Expression.evaluate_before lookup .minus (.number (.ofRow hne hcs hv))
    rw [Expression.value, Expression.value, pure_bind, Expression.operate_of_apply happly] at hvalue
    rw [htext]
    exact congrFun hvalue s

/-- Digits behind a sign have the value that they denote, if it has a magnitude of sixty-three
bits. -/
theorem evaluate_digits (lookup : Lookup σ ε) {n : Int64} (hn : n.toInt = signed negative k)
    (hk : k < 2 ^ 63) (s : σ) :
    evaluate lookup (String.ofList (signText negative ++ Numeral.digits k)) s =
      (.ok (.integer n), s) := by
  -- the literal is the magnitude, and a minus sign in front of it negates it
  obtain ⟨u, hu⟩ : ∃ u : Int64, u.toInt = k := exists_toInt_eq_signed false hk
  refine evaluate_signText lookup (Numeral.digits_ne_nil k)
    (fun c hc => Lexeme.isNumeric_of_isDigit (Numeral.isDigit_of_mem_digits hc))
    (Value.ofLiteral_digits hu) ?_ s
  obtain _ | _ := negative
  · have hnu : n = u := Int64.toInt_inj.mp (hn.trans hu.symm)
    rw [hnu]
    rfl
  · have hneg : -u.toInt = n.toInt := by rw [hn, hu]; rfl
    rw [if_pos rfl, Arithmetic.negate, hneg, Value.exactOr, Integer.ofInt?_toInt]

/-! ### Texts of values -/

private theorem evaluate_booleanText (lookup : Lookup σ ε) (b : Bool) (s : σ) :
    evaluate lookup (Value.booleanText b) s = (.ok (.boolean b), s) :=
  congrFun (Expression.evaluate_render lookup (.boolean b)) s

/-- The text of an integer other than the smallest one is evaluated to it. -/
private theorem evaluate_integerText (lookup : Lookup σ ε) {n : Int64} (h : n ≠ Int64.minValue)
    (s : σ) :
    evaluate lookup (Value.integer n).text s = (.ok (.integer n), s) := by
  rw [Value.text, Numeral.ofInt_eq]
  exact evaluate_digits lookup (Binary64.signed_natAbs n.toInt).symm
    (Integer.natAbs_toInt_lt h) s

/-- A number that is not integral is written with a point. -/
theorem evaluate_text_of_not_dvd (lookup : Lookup σ ε) (h : ¬Binary64.unitsPerOne ∣ m.units)
    (negative : Bool) (s : σ) :
    evaluate lookup (Binary64.finite negative m).text s =
      (.ok (.float (.finite negative m)), s) := by
  have hm : m.units ≠ 0 := fun hm => h (hm ▸ Nat.dvd_zero _)
  have hexponent : m.shortest.exponent < 0 :=
    Int.not_le.mp (mt (Magnitude.exponent_shortest_nonneg_iff hm).mp h)
  rw [Binary64.text, if_neg hm]
  refine evaluate_signText lookup m.shortest.plain_ne_nil
    (fun c hc => Decimal.isNumeric_of_mem_plain hc) (Value.ofLiteral_shortest hm hexponent) ?_ s
  cases negative <;> rfl

/-- An integral number is read as the integer whose digits are printed. -/
theorem evaluate_text_of_dvd (lookup : Lookup σ ε) (h : Binary64.unitsPerOne ∣ m.units)
    (hlt : m.truncated < 2 ^ 63) (negative : Bool) (s : σ) :
    ∃ n : Int64, n.toInt = signed negative m.printed ∧
      evaluate lookup (Binary64.finite negative m).text s = (.ok (.integer n), s) ∧
      (Value.integer n).equals (.float (.finite negative m)) = true := by
  have hprinted := Magnitude.printed_lt h hlt
  obtain ⟨n, hn⟩ := exists_toInt_eq_signed negative hprinted
  refine ⟨n, hn, ?_, ?_⟩
  · rw [Binary64.text_of_dvd h]
    exact evaluate_digits lookup hn hprinted s
  · change ((Binary64.ofInt n.toInt).compare? (.finite negative m) == some .eq) = true
    rw [hn, Binary64.compare?_ofInt_printed h]
    rfl

/-- The text of the least integer cannot be read. -/
theorem evaluate_minValueText (lookup : Lookup σ ε) (s : σ) :
    evaluate lookup (Value.integer Int64.minValue).text s =
      (.error (.fault (.parse (.invalidLiteral "9223372036854775808"))), s) := by
  let sign : Token := ⟨"-", .operator ⟨.minus, 3, .fixed 1, true⟩, 0⟩
  let t : Token := ⟨"9223372036854775808", .value, 1⟩
  have htokens : Token.tokenize (Text.normalize (Value.integer Int64.minValue).text) =
      .ok [sign, t] := by decide +kernel
  have hpost : Rpn.ofTokens [sign, t] = .ok ([] ++ t :: [sign]) := by decide +kernel
  have hliteral : Value.ofLiteral t.text = .error (.invalidLiteral t.text) := by decide +kernel
  rw [evaluate_of_tokenize htokens, Rpn.value, hpost]
  change Rpn.evaluate lookup ([] ++ t :: [sign]) s = _
  rw [Rpn.evaluate_of_ofLiteral_error lookup rfl hliteral]
  rfl

/-- **Values are read back from their texts.** A formula that is the text of a truth value, of an
integer but the least one or of a finite number below `2 ^ 63` has a value that equals it. This is
the same value unless it is a number with the value of an integer: then it is the integer whose
digits are printed, which below `2 ^ 54 + 8` is that value. The magnitude of the least integer is no
literal. -/
theorem evaluate_text (lookup : Lookup σ ε) (s : σ) :
    (∀ v : Value, v.Legible → ∃ w, evaluate lookup v.text s = (.ok w, s) ∧ w.equals v = true ∧
      ((∀ x k, v = .float x → x.toInt64? ≠ some k) → w = v) ∧
      ∀ x k, v = .float x → x.toInt64? = some k → ∃ n, w = .integer n ∧
        Numeral.readInt? v.text.toList = some n.toInt ∧
        (k.toInt.natAbs < 2 ^ 54 + 8 → n = k)) ∧
    evaluate lookup (Value.integer Int64.minValue).text s =
      (.error (.fault (.parse (.invalidLiteral "9223372036854775808"))), s) := by
  refine ⟨fun v hv => ?_, evaluate_minValueText lookup s⟩
  have hself := Value.equals_self hv
  cases v with
  | boolean b =>
    exact ⟨_, evaluate_booleanText lookup b s, hself, fun _ => rfl, fun x k hx => by cases hx⟩
  | integer n =>
    exact ⟨_, evaluate_integerText lookup hv s, hself, fun _ => rfl, fun x k hx => by cases hx⟩
  | float x =>
    cases x with
    | infinite negative => exact absurd hv id
    | nan => exact absurd hv id
    | finite negative m =>
      by_cases hdvd : Binary64.unitsPerOne ∣ m.units
      · obtain ⟨n, hn, hvalue, hequals⟩ := evaluate_text_of_dvd lookup hdvd hv negative s
        refine ⟨_, hvalue, hequals, fun hne => ?_, ?_⟩
        · obtain ⟨k, hk⟩ := exists_toInt_eq_signed negative hv
          exact absurd (Binary64.toInt64?_eq_some_iff.mpr ⟨hdvd, hk⟩) (hne _ k rfl)
        · rintro x k ⟨⟩ hk
          obtain ⟨-, hk⟩ := Binary64.toInt64?_eq_some_iff.mp hk
          refine ⟨n, rfl, ?_, fun hlt => Int64.toInt_inj.mp ?_⟩
          · rw [Value.text, Binary64.text_of_dvd hdvd, String.toList_ofList,
              Numeral.readInt?_signText, hn]
          · rw [hk, Binary64.natAbs_signed] at hlt
            rw [hn, hk, Magnitude.printed_of_lt hdvd hlt]
      · refine ⟨_, evaluate_text_of_not_dvd lookup hdvd negative s, hself, fun _ => rfl, ?_⟩
        rintro x k ⟨⟩ hk
        exact absurd (Binary64.toInt64?_eq_some_iff.mp hk).1 hdvd

/-- Minus a tenth is read back as it is, and minus three as an integer. -/
theorem evaluate_text_negative :
    let tenth := Value.float (.ofBits 0xBFB999999999999A)
    let three := Value.float (.ofBits 0xC008000000000000)
    tenth.Legible ∧
      evaluate (Lookup.noVariables : Lookup Unit Error) tenth.text () = (.ok tenth, ()) ∧
      three.Legible ∧
      evaluate (Lookup.noVariables : Lookup Unit Error) three.text () =
        (.ok (.integer (-3)), ()) := by
  intro tenth three
  have htenth : tenth.Legible := by decide +kernel
  have hthree : three.Legible := by decide +kernel
  refine ⟨htenth, ?_, hthree, ?_⟩
  · obtain ⟨w, hvalue, -, hsame, -⟩ := (evaluate_text Lookup.noVariables ()).1 tenth htenth
    have hnone : (Binary64.ofBits 0xBFB999999999999A).toInt64? = none := by decide +kernel
    obtain rfl : w = tenth := hsame fun x k hx => by
      obtain rfl := Value.float.inj hx
      exact hnone ▸ (Option.some_ne_none k).symm
    exact hvalue
  · obtain ⟨w, hvalue, -, -, hinteger⟩ := (evaluate_text Lookup.noVariables ()).1 three hthree
    obtain ⟨n, rfl, -, hn⟩ := hinteger _ (-3) rfl (by decide +kernel)
    rw [hvalue, hn (by decide)]

/-- The number `2 ^ 62` is printed with zeros in place of its last digits, and `2 ^ 54 + 8` is the
least one for which this happens. -/
theorem evaluate_text_padded :
    let large := Binary64.ofBits 0x43D0000000000000
    let least := Binary64.ofBits 0x4350000000000002
    let outcome := fun text => (evaluate (Lookup.noVariables : Lookup Unit Error) text ()).1
    ((Value.float large).Legible ∧ large.toInt64? = some 4611686018427387904 ∧
      (Value.float large).text = "4611686018427388000" ∧
      outcome (Value.float large).text = .ok (.integer 4611686018427388000)) ∧
    (Value.float least).Legible ∧ least.toInt64? = some 18014398509481992 ∧
      (Value.float least).text = "18014398509481990" ∧
      outcome (Value.float least).text = .ok (.integer 18014398509481990) := by
  decide +kernel

end Formula
