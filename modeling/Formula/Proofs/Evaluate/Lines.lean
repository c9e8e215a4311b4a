import Formula.Proofs.Evaluate.Names
import Formula.Proofs.Token.Slices
import Formula.Proofs.Value.Text

/-!
# Results on one line

The text of a value and the message of a failure do not break a line. What a message quotes of
a formula are words of its normal form, in which there is no white space
(`Token.oneLine_of_tokenize`); the other texts in errors are the symbols and the names of
operations. Everything else in a message is wording, numbers and values
(`Error.oneLine_message`).
-/

namespace Formula

/-! ### Texts -/

/-- The text has no end of a line in it. -/
def Text.OneLine (text : String) : Prop := '\n' ∉ text.toList

namespace Text

instance : DecidablePred OneLine := fun text => inferInstanceAs (Decidable ('\n' ∉ text.toList))

private theorem oneLine_append {s t : String} : OneLine (s ++ t) ↔ OneLine s ∧ OneLine t := by
  rw [OneLine, OneLine, OneLine, String.toList_append, List.mem_append, not_or]

private theorem oneLine_ofList {cs : List Char} : OneLine (String.ofList cs) ↔ '\n' ∉ cs := by
  rw [OneLine, String.toList_ofList]

/-- Numbers are written in digits. -/
theorem oneLine_countText (n : Nat) : OneLine (countText n) :=
  oneLine_ofList.mpr fun h => absurd (Numeral.isDigit_of_mem_digits h) (by decide)

end Text

open Text (OneLine oneLine_append oneLine_ofList oneLine_countText)

private theorem Binary64.newline_not_mem_signText (negative : Bool) : '\n' ∉ signText negative := by
  cases negative <;> decide

/-- A number is written in digits with a point, or as one of a few words. -/
theorem Binary64.oneLine_text (x : Binary64) : OneLine x.text := by
  cases x with
  | finite negative m =>
    refine oneLine_ofList.mpr fun h => ?_
    obtain h | h := List.mem_append.mp h
    · exact newline_not_mem_signText negative h
    · split at h
      · exact absurd h (by decide)
      · exact absurd (Decimal.isNumeric_of_mem_plain h) (by decide)
  | infinite negative =>
    refine oneLine_ofList.mpr fun h => ?_
    obtain h | h := List.mem_append.mp h
    · exact newline_not_mem_signText negative h
    · exact absurd h (by decide)
  | nan => decide

/-- **The text of a value is on one line.** -/
theorem Value.oneLine_text (v : Value) : OneLine v.text := by
  cases v with
  | integer n =>
    rw [text, Numeral.ofInt_eq]
    refine oneLine_ofList.mpr fun h => ?_
    obtain h | h := List.mem_append.mp h
    · exact Binary64.newline_not_mem_signText _ h
    · exact absurd (Numeral.isDigit_of_mem_digits h) (by decide)
  | float x => exact x.oneLine_text
  | boolean b => cases b <;> decide

/-! ### Messages -/

/-- The words that an error in a text quotes. -/
def ParseError.texts : ParseError → List String
  | unrecognizedInput text _ | invalidLiteral text => [text]
  | unbalancedParenthesis _ | misplacedComma _ => []

/-- The names in an error of evaluation. -/
def RuntimeError.texts : RuntimeError → List String
  | argumentCount name _ _ | type name _ | domain name _ | divisionByZero name
  | missingOperand name _ _ | unknownVariable name => [name]
  | unbalancedExpression _ => []

/-- What an error quotes. -/
def Error.texts : Error → List String
  | parse e => e.texts
  | runtime e => e.texts

private theorem ArgumentExpectation.oneLine_text (e : ArgumentExpectation) : OneLine e.text := by
  cases e with
  | range r =>
    rw [text, ArgumentRange.text]
    split
    · exact oneLine_append.mpr ⟨by decide, oneLine_countText _⟩
    · split
      · exact oneLine_countText _
      · split <;>
        · simp only [oneLine_append, oneLine_countText, true_and, and_true]
          decide
  | argumentList => decide

private theorem TypeFault.oneLine_text (fault : TypeFault) : OneLine fault.text := by
  cases fault with
  | expectedInteger found | expectedBoolean found => cases found <;> decide
  | booleanAsNumber | floatAsInteger | notComparison | notRounding => decide

/-- What is said of an operand is on one line, because the texts of numbers are. -/
private theorem DomainFault.oneLine_text (fault : DomainFault) : OneLine fault.text := by
  cases fault with
  | powerOfZero | powerOfNegative => decide
  | shiftAmount amount =>
    simp only [text, oneLine_append, Value.oneLine_text, and_true]
    decide +kernel
  | notPositive x | invalidBase x | outsideUnitInterval x | scaleNotPositive x =>
    simp only [text, oneLine_append, x.oneLine_text, true_and, and_true]
    decide +kernel

/-- The message of a text that cannot be read is on one line if what it quotes is. -/
theorem ParseError.oneLine_message {e : ParseError} (h : ∀ text ∈ e.texts, OneLine text) :
    OneLine e.message := by
  cases e with
  | unrecognizedInput text position | invalidLiteral text =>
    have htext := h text (List.mem_singleton_self text)
    -- rewriting by the equations of `message` would work out its texts letter by letter
    unfold message
    simp only [oneLine_append, oneLine_countText, htext, and_true]
    decide +kernel
  | unbalancedParenthesis position | misplacedComma position =>
    unfold message
    simp only [oneLine_append, oneLine_countText, and_true]
    decide +kernel

/-- The message of a failed evaluation is on one line if what it quotes is. -/
theorem RuntimeError.oneLine_message {e : RuntimeError} (h : ∀ text ∈ e.texts, OneLine text) :
    OneLine e.message := by
  cases e with
  | argumentCount name _ expected =>
    have hname := h name (List.mem_singleton_self name)
    unfold message
    simp only [oneLine_append, oneLine_countText, expected.oneLine_text, hname, and_true]
    decide +kernel
  | type name fault | domain name fault =>
    have hname := h name (List.mem_singleton_self name)
    unfold message
    simp only [oneLine_append, fault.oneLine_text, hname, and_true]
    decide +kernel
  | divisionByZero name | missingOperand name _ _ | unknownVariable name =>
    have hname := h name (List.mem_singleton_self name)
    unfold message
    simp only [oneLine_append, oneLine_countText, hname, and_true]
    decide +kernel
  | unbalancedExpression remaining =>
    unfold message
    simp only [oneLine_append, oneLine_countText, and_true]
    decide +kernel

/-- A message is on one line if what it quotes is. -/
theorem Error.oneLine_message {e : Error} (h : ∀ text ∈ e.texts, OneLine text) :
    OneLine e.message := by
  cases e with
  | parse e => exact ParseError.oneLine_message h
  | runtime e => exact RuntimeError.oneLine_message h

/-! ### What failures quote -/

/-- There are no ends of lines in a normal form. -/
theorem Text.oneLine_normalize (s : String) : OneLine (normalize s) := by
  refine oneLine_ofList.mpr fun h => ?_
  have hseparator := (settled_of_mem_normalizeChars '\n' h).2
  exact absurd hseparator (by decide)

namespace Token

variable {position : Nat} {previous : Option Token} {cs : List Char} {ts : List Token}
  {e : ParseError} {s : String}

/-- The tokens of a normal form are on one line as it is. -/
theorem oneLine_of_tokenize (h : tokenize (Text.normalize s) = .ok ts) :
    ∀ t ∈ ts, OneLine t.text := by
  intro t ht
  obtain ⟨before, after, htext, -⟩ := (slices_of_tokenize h).slice t ht
  have hline := Text.oneLine_normalize s
  rw [htext, oneLine_append, oneLine_append] at hline
  exact hline.1.2

/-- What cannot be read is a character of the text. -/
theorem Cuts.exists_of_error (h : Cuts position previous cs ts (some e)) :
    ∃ c place, e = .unrecognizedInput (String.singleton c) place ∧ c ∈ cs := by
  generalize herror : some e = error at h
  induction h with
  | done h => cases herror
  | @stuck position previous cs rest c h hnone =>
    obtain rfl := Option.some.inj herror
    refine ⟨c, _, rfl, ?_⟩
    rw [eq_takeWhile_append h]
    exact List.mem_append_right _ List.mem_cons_self
  | word h hw hk hplace hrest ih =>
    obtain ⟨c, place, he, hc⟩ := ih herror
    refine ⟨c, place, he, ?_⟩
    rw [eq_takeWhile_append h]
    exact List.mem_append_right _ (List.mem_append_right _ hc)

end Token

namespace Rpn

variable {ts post : List Token} {t : Token} {y : Yard} {e : ParseError}

/-- A parenthesis or a comma out of place is not quoted. -/
theorem texts_of_step_error (h : y.step t = .error e) : e.texts = [] := by
  cases hk : t.kind with
  | comma =>
    rw [Yard.step_comma hk] at h
    unfold Yard.comma at h
    split at h
    · exact Except.error.inj h ▸ rfl
    · exact Except.error.inj h ▸ rfl
    · cases h
  | parenthesis side =>
    cases side with
    | opening => cases (Yard.step_opening (Token.isOpening_iff.mpr hk)).symm.trans h
    | closing =>
      rw [Yard.step_closing hk] at h
      unfold Yard.closing at h
      split at h
      · exact Except.error.inj h ▸ rfl
      · exact Except.error.inj h ▸ rfl
      · cases h
  | value => cases (Yard.step_operand (.inl hk)).symm.trans h
  | symbol => cases (Yard.step_operand (.inr hk)).symm.trans h
  | operator b => cases (Yard.step_operator hk).symm.trans h
  | function b => cases (Yard.step_function (Token.isFunction_iff.mpr ⟨b, hk⟩)).symm.trans h

/-- Whatever goes wrong in the yard, no part of the text is quoted. -/
private theorem texts_of_run_error (h : y.run ts = .error e) : e.texts = [] := by
  induction ts generalizing y with
  | nil => cases h
  | cons t ts ih =>
    cases hstep : y.step t with
    | error e' =>
      rw [Yard.run_cons_of_error hstep] at h
      exact Except.error.inj h ▸ texts_of_step_error hstep
    | ok y' =>
      rw [Yard.run_cons_of_ok hstep] at h
      exact ih h

private theorem texts_of_ofTokens_error (h : ofTokens ts = .error e) : e.texts = [] := by
  cases hrun : Yard.empty.run ts with
  | error e' =>
    rw [ofTokens_of_run_error hrun] at h
    exact Except.error.inj h ▸ texts_of_run_error hrun
  | ok y =>
    rw [ofTokens_of_run hrun, Yard.finish] at h
    split at h
    · exact Except.error.inj h ▸ rfl
    · cases h

/-- What comes out of the yard has the text of a token that went in. -/
theorem exists_text_of_ofTokens (h : ofTokens ts = .ok post) :
    ∀ u ∈ post, u.remains = true ∧ ∃ t ∈ ts, u.text = t.text := by
  obtain ⟨placed, rfl, harrangement⟩ := exists_arrangement h
  refine List.forall_mem_map.mpr fun p hp => ⟨harrangement.remains hp, ?_⟩
  obtain ⟨t, ht⟩ := harrangement.settled p hp
  exact ⟨t, List.mem_of_getElem? ht.found, ht.text_eq⟩

/-- The name in an error of a binding is on one line if the text of its token is. -/
theorem oneLine_of_applyBinding {b : Binding} {stack : List Value} {r : RuntimeError}
    (ht : OneLine t.text) (h : applyBinding t b stack = .error r) :
    ∀ text ∈ r.texts, OneLine text := by
  have hname : ∀ o : Operation, OneLine o.name := by
    intro o
    cases o <;> decide
  have hblames : ∀ {name : String} {r : RuntimeError}, r.Blames name → OneLine name →
      ∀ text ∈ r.texts, OneLine text := by
    intro name r hr hline
    cases hr <;> exact List.forall_mem_singleton.mpr hline
  obtain ⟨-, rfl⟩ | ⟨needed, -, rfl⟩ | ⟨vs, e', happly, rfl⟩ := applyBinding_error_cases h
  · exact List.forall_mem_singleton.mpr (hname b.operation)
  · exact List.forall_mem_singleton.mpr ht
  · have happly := Operation.blames_of_apply happly
    rw [nameError]
    split
    · next e he =>
      have hsymbol : ∀ e ∈ Catalog.entries, OneLine e.symbol := by decide
      exact hblames (RuntimeError.blames_renamed happly e.symbol)
        (hsymbol e (List.mem_of_find?_eq_some he))
    · exact hblames happly (hname b.operation)

end Rpn

variable {σ : Type} {lookup : Lookup σ Error} {expression : String} {s s' : σ}
  {failure : Failure Error}

/-- A text that cannot be read has a character or nothing of it quoted. -/
theorem oneLine_of_ofText {e : ParseError} (h : Rpn.ofText expression = .error e) :
    ∀ text ∈ e.texts, OneLine text := by
  rw [Rpn.ofText] at h
  cases htokens : Token.tokenize (Text.normalize expression) with
  | error e' =>
    rw [htokens] at h
    obtain rfl := Except.error.inj h
    obtain ⟨ts, hcuts⟩ := Token.tokenize_eq_error_iff.mp htokens
    obtain ⟨c, place, rfl, hc⟩ := hcuts.exists_of_error
    refine List.forall_mem_singleton.mpr fun hnewline => ?_
    rw [String.toList_singleton, List.mem_singleton] at hnewline
    exact Text.oneLine_normalize expression (hnewline ▸ hc)
  | ok ts =>
    rw [htokens] at h
    rw [Rpn.texts_of_ofTokens_error h]
    exact List.forall_mem_nil _

/-- **The message of a failure is on one line.** The lookup may fail for names that it does not
know. -/
theorem oneLine_of_evaluate
    (hlookup : ∀ name s e s', lookup name s = (.error e, s') →
      e = .runtime (.unknownVariable name))
    (h : evaluate lookup expression s = (.error failure, s')) : OneLine failure.error.message := by
  refine Error.oneLine_message ?_
  obtain ⟨e, hread, rfl, -⟩ | ⟨ts, post, htokens, hpost, h⟩ := error_cases_of_evaluate h
  · exact oneLine_of_ofText hread
  obtain ⟨before, u, after, stack, s₁, hsplit, -, hpush⟩ | ⟨stack, -, -, rfl⟩ :=
    Rpn.evaluate_error_cases h
  swap
  · exact List.forall_mem_nil _
  have hu : u ∈ post := by simp [hsplit]
  obtain ⟨hremains, t, ht, htext⟩ := Rpn.exists_text_of_ofTokens hpost u hu
  have hline : OneLine u.text := htext ▸ Token.oneLine_of_tokenize htokens t ht
  obtain ⟨hside, hcomma⟩ := Token.kind_ne_of_remains hremains
  obtain ⟨-, rfl⟩ | ⟨-, e, he, rfl⟩ | ⟨b, r, -, happly, rfl⟩ | ⟨side, hk⟩ | hk :=
    Rpn.push_error_cases hpush
  · exact List.forall_mem_singleton.mpr hline
  · obtain rfl := hlookup _ _ _ _ he
    exact List.forall_mem_singleton.mpr hline
  · exact Rpn.oneLine_of_applyBinding hline happly
  · exact absurd hk (hside side)
  · exact absurd hk hcomma

end Formula
