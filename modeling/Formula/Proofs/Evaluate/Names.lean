import Formula.Proofs.Evaluate.Words
import Formula.Proofs.Operation.Validation
import Formula.Proofs.Rpn.Failures
import Formula.Proofs.Yard.Arrangement

/-!
# The names in the errors of formulas

Several symbols stand for one operation, and the errors of the operation name the symbol that
was written. The tokens of a formula have the symbols for their texts
(`Word.exists_entry_of_binding`) and keep them in the yard, so that the name is the text of the
token at which the evaluation fails (`evaluate_error_name`).

There is one exception. A function of no fixed number of arguments that stands without a list of
them fails before it is applied, and then under the name of its operation. Of the symbols for
such functions only `ceil` has another name than its operation.
-/

namespace Formula

/-- The error of a failure where the lookup has errors of the same kind. -/
def Failure.error : Failure Error → Error
  | .fault e | .lookup e => e

/-! ### The tokens of symbols -/

namespace Catalog

/-- The binding that the role itself has; that of a sign depends on where it stands. -/
def Role.ownBinding? : Role → Option Binding
  | .operator b | .function b => some b
  | .sign _ | .parenthesis _ | .comma => none

/-- Among the operators and functions of no fixed number of operands only `ceil` has another
name than its operation. -/
theorem name_of_variadic : ∀ e ∈ entries, ∀ b ∈ e.role.ownBinding?, b.arity = .variadic →
    b.operation.name = e.symbol ∨ e.symbol = "ceil" ∧ b.operation.name = "ceiling" := by
  decide

/-- A token of no fixed number of operands has its binding from its entry, as a sign is unary
or binary. -/
theorem ownBinding?_of_token {e : Entry} {text : String} {position : Nat}
    {previous : Option Token} {b : Binding} (h : (e.token text position previous).binding? = some b)
    (harity : b.arity = .variadic) : e.role.ownBinding? = some b := by
  cases hrole : e.role with
  | operator b' | function b' =>
    simpa [Entry.token, Token.binding?, hrole, Role.ownBinding?] using h
  | sign operation =>
    obtain rfl : signBinding operation previous = b := by
      simpa [Entry.token, Token.binding?, hrole] using h
    rw [signBinding, signArity] at harity
    cases hp : previous.any (·.endsOperand) <;> simp [hp] at harity
  | parenthesis side | comma => simp [Entry.token, Token.binding?, hrole] at h

end Catalog

namespace Word

/-- The tokens of words, each with its word. -/
theorem exists_of_mem_tokens {ws : List Word} {position : Nat} {previous : Option Token}
    {t : Token} (h : t ∈ tokens position previous ws) :
    ∃ w ∈ ws, ∃ position' previous', t = w.token position' previous' := by
  induction ws generalizing position previous with
  | nil => exact absurd h List.not_mem_nil
  | cons w ws ih =>
    rw [tokens] at h
    obtain rfl | h := List.mem_cons.mp h
    · exact ⟨w, List.mem_cons_self, position, previous, rfl⟩
    · obtain ⟨v, hv, hvt⟩ := ih h
      exact ⟨v, List.mem_cons_of_mem w hv, hvt⟩

/-- The token of an operator or a function is that of a symbol. -/
theorem exists_entry_of_binding {ts : List Token} {s : String} {t : Token} {b : Binding}
    (h : Token.tokenize (Text.normalize s) = .ok ts) (ht : t ∈ ts) (hb : t.binding? = some b) :
    ∃ e ∈ Catalog.entries, ∃ position previous, t = e.token e.symbol position previous := by
  obtain ⟨ws, -, -, rfl⟩ := exists_of_tokenize h
  obtain ⟨w, -, position, previous, rfl⟩ := exists_of_mem_tokens ht
  cases hr : w.lexeme.rule with
  | entry e =>
    obtain ⟨he, hw⟩ := w.spells.eq_symbol hr
    exact ⟨e, he, position, previous, by rw [token, Lexeme.token, hr, hw, String.ofList_toList]⟩
  | word text | number | identifier =>
    rw [token, Lexeme.token, hr] at hb
    exact absurd hb (by simp [Token.binding?])

end Word

namespace Rpn

variable {σ ε : Type}

/-- The token is the first in the order of evaluation at which the evaluation fails. -/
def FailsAt (lookup : Lookup σ ε) (post : List Token) (s : σ) (u : Token) (failure : Failure ε)
    (s' : σ) : Prop :=
  ∃ before after stack s₁, post = before ++ u :: after ∧
    before.foldlM (push lookup) [] s = (.ok stack, s₁) ∧
    push lookup stack u s₁ = (.error failure, s')

namespace Settles

variable {ts : List Token} {place : Nat} {t u : Token}

theorem text_eq (h : Settles ts place t u) : u.text = t.text := by
  obtain rfl | ⟨-, n, rfl⟩ := h.same
  · rfl
  · exact t.text_withArity n

/-- Operators and functions come out as such, and a function whose number of arguments is not
settled comes out as it is. -/
theorem exists_binding {b : Binding} (h : Settles ts place t u) (hb : u.binding? = some b) :
    ∃ b', t.binding? = some b' ∧ (b.arity = .variadic → u = t) := by
  obtain rfl | ⟨hf, n, rfl⟩ := h.same
  · exact ⟨b, hb, fun _ => rfl⟩
  · obtain ⟨b', hb'⟩ := Token.isFunction_iff.mp hf
    refine ⟨b', by rw [Token.binding?, hb'], fun harity => ?_⟩
    obtain rfl : { b' with arity := .fixed n } = b := by
      simpa [Token.withArity, Token.binding?, hb'] using hb
    cases harity

end Settles

/-- The name in an error of a binding whose token has the text of its symbol. -/
theorem name_of_applyBinding {u : Token} {b : Binding} {stack : List Value} {r : RuntimeError}
    {e : Catalog.Entry} (he : e ∈ Catalog.entries) (htext : u.text = e.symbol)
    (h : applyBinding u b stack = .error r) :
    r.name? = some u.text ∨
      b.arity = .variadic ∧ r = .argumentCount b.operation.name 0 .argumentList := by
  obtain ⟨harity, rfl⟩ | ⟨needed, -, rfl⟩ | ⟨vs, e', happly, rfl⟩ := applyBinding_error_cases h
  · exact .inr ⟨harity, rfl⟩
  · exact .inl rfl
  · have hblames := Operation.blames_of_apply happly
    rw [nameError_symbol he htext, htext]
    exact .inl (RuntimeError.blames_renamed hblames e.symbol).name?_eq

end Rpn

variable {σ : Type} {lookup : Lookup σ Error} {expression : String} {s s' : σ}
  {failure : Failure Error} {r : RuntimeError} {name : String}

/-- **An error names the symbol that was written.** The lookup may fail for names that it does
not know. An error with a name is then that of an operator or a function of the formula, and the
name is the text of this token, with one exception: the function `ceil` without arguments in
parentheses fails under the name `ceiling`. -/
theorem evaluate_error_name
    (hlookup : ∀ name s e s', lookup name s = (.error e, s') →
      e = .runtime (.unknownVariable name))
    (h : evaluate lookup expression s = (.error failure, s'))
    (hr : failure.error = .runtime r) (hname : r.name? = some name) :
    ∃ ts post t u, Token.tokenize (Text.normalize expression) = .ok ts ∧
      Rpn.ofTokens ts = .ok post ∧ Rpn.FailsAt lookup post s u failure s' ∧
      (t ∈ ts ∧ t.binding?.isSome = true ∧ (u = t ∨ ∃ n, u = t.withArity n)) ∧
      (name = t.text ∨
        t.text = "ceil" ∧ u = t ∧ r = .argumentCount "ceiling" 0 .argumentList) := by
  obtain ⟨e, -, rfl, -⟩ | ⟨ts, post, htokens, hpost, h⟩ := error_cases_of_evaluate h
  · cases hr
  obtain ⟨before, u, after, stack, s₁, hsplit, hbefore, hpush⟩ | ⟨stack, -, -, rfl⟩ :=
    Rpn.evaluate_error_cases h
  swap
  · obtain rfl := Error.runtime.inj hr
    cases hname
  -- the token that fails has come out of the yard
  obtain ⟨placed, rfl, harrangement⟩ := Rpn.exists_arrangement hpost
  have hu : u ∈ placed.map (·.token) := by simp [hsplit]
  obtain ⟨p, hp, rfl⟩ := List.mem_map.mp hu
  obtain ⟨t, ht⟩ := harrangement.settled p hp
  have hfail : Rpn.FailsAt lookup (placed.map (·.token)) s p.token failure s' :=
    ⟨before, after, stack, s₁, hsplit, hbefore, hpush⟩
  have hsame : p.token = t ∨ ∃ n, p.token = t.withArity n := ht.same.imp_right And.right
  obtain ⟨hside, hcomma⟩ := Token.kind_ne_of_remains (harrangement.remains hp)
  obtain ⟨-, rfl⟩ | ⟨-, e, he, rfl⟩ | ⟨b, r', hb, happly, rfl⟩ | ⟨side, hk⟩ | hk :=
    Rpn.push_error_cases hpush
  · cases hr
  · -- an unknown variable is no name in the sense of the theorem
    obtain rfl := hlookup _ _ _ _ he
    obtain rfl := Error.runtime.inj hr
    cases hname
  · obtain rfl := Error.runtime.inj hr
    have hmem := List.mem_of_getElem? ht.found
    obtain ⟨b', hb', hkept⟩ := ht.exists_binding hb
    obtain ⟨e, he, position, previous, hentry⟩ := Word.exists_entry_of_binding htokens hmem hb'
    have htext : t.text = e.symbol := by rw [hentry, Catalog.Entry.token]
    refine ⟨ts, _, t, p.token, htokens, hpost, hfail, ⟨hmem, by rw [hb']; rfl, hsame⟩, ?_⟩
    obtain hnamed | ⟨harity, rfl⟩ := Rpn.name_of_applyBinding he (ht.text_eq.trans htext) happly
    · rw [hname, ht.text_eq] at hnamed
      exact .inl (Option.some.inj hnamed)
    · -- the function has not been called
      have hut := hkept harity
      rw [hut, hentry] at hb
      have hown := Catalog.ownBinding?_of_token hb harity
      obtain hsymbol | ⟨hceil, hceiling⟩ := Catalog.name_of_variadic e he b hown harity
      · rw [RuntimeError.name?, hsymbol] at hname
        exact .inl ((Option.some.inj hname).symm.trans htext.symm)
      · exact .inr ⟨htext.trans hceil, hut, by rw [hceiling]⟩
  · exact absurd hk (hside side)
  · exact absurd hk hcomma

/-- A remainder of a division by zero, where the operation has another name. -/
theorem evaluate_percent_error :
    let failure : Failure Error := .fault (.runtime (.divisionByZero "%"))
    evaluate Lookup.noVariables "7 % 0" () = (.error failure, ()) ∧
      ∃ ts post t u, Token.tokenize (Text.normalize "7 % 0") = .ok ts ∧
        Rpn.ofTokens ts = .ok post ∧ Rpn.FailsAt Lookup.noVariables post () u failure () ∧
        t ∈ ts ∧ "%" = t.text := by
  intro failure
  have hlookup : ∀ name s e s', (Lookup.noVariables : Lookup Unit Error) name s = (.error e, s') →
      e = .runtime (.unknownVariable name) := by
    intro name s e s' h
    exact (Except.error.inj (congrArg Prod.fst h)).symm
  have hfails : (evaluate Lookup.noVariables "7 % 0" ()).1 = .error failure := by decide +kernel
  have h : evaluate Lookup.noVariables "7 % 0" () = (.error failure, ()) := Prod.ext hfails rfl
  obtain ⟨ts, post, t, u, hts, hpost, hfail, ⟨ht, -⟩, hname | ⟨-, -, hr⟩⟩ :=
    evaluate_error_name hlookup h rfl rfl
  · exact ⟨h, ts, post, t, u, hts, hpost, hfail, ht, hname⟩
  · cases hr

/-- The exception: `ceil` alone fails under a name that was not written. -/
theorem evaluate_ceil_error :
    (evaluate Lookup.noVariables "ceil" ()).1 =
        .error (.fault (.runtime (.argumentCount "ceiling" 0 .argumentList))) ∧
      ∀ ts, Token.tokenize (Text.normalize "ceil") = .ok ts → ∀ t ∈ ts, t.text ≠ "ceiling" := by
  refine ⟨by decide +kernel, fun ts hts => ?_⟩
  have hceil : Token.tokenize (Text.normalize "ceil") =
      .ok [⟨"ceil", .function ⟨.ceiling, 0, .variadic, false⟩, 0⟩] := by decide +kernel
  obtain rfl := Except.ok.inj (hceil.symm.trans hts)
  decide

end Formula
