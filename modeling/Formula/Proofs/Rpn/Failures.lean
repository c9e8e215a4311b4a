import Formula.Proofs.Rpn.Stack

/-!
# How an evaluation fails

Tokens are evaluated one after the other until one of them fails, and then there are the causes
that `Rpn.push_error_cases` lists, by the kinds of tokens. An evaluation in which none of them
fails may still leave no value, or several (`Rpn.evaluate_error_cases`).
-/

namespace Formula

/-- A symbol of the catalog is found under itself. -/
private theorem Catalog.find?_symbol :
    ∀ e ∈ entries, (find? e.symbol).map (·.symbol) = some e.symbol := by
  decide

namespace Rpn

variable {σ ε : Type} {lookup : Lookup σ ε} {stack : List Value} {t : Token} {s s' : σ}
  {failure : Failure ε} {ts : List Token}

/-- Only a literal that denotes nothing has no value. -/
theorem eq_of_ofLiteral_error {text : String} {e : ParseError}
    (h : Value.ofLiteral text = .error e) : e = .invalidLiteral text := by
  rw [Value.ofLiteral] at h
  cases hv : Value.ofLiteral? text with
  | none =>
    rw [hv] at h
    exact (Except.error.inj h).symm
  | some v =>
    rw [hv] at h
    cases h

/-- The errors of an operation name the symbol if the token's text is one. -/
theorem nameError_symbol {e : Catalog.Entry} (he : e ∈ Catalog.entries) (ht : t.text = e.symbol)
    (error : RuntimeError) : nameError t error = error.renamed e.symbol := by
  obtain ⟨e', hfind, hsymbol⟩ := Option.map_eq_some_iff.mp (Catalog.find?_symbol e he)
  rw [nameError, ht, hfind]
  exact congrArg error.renamed hsymbol

/-- How a binding fails: there is no number of operands, there are not so many of them, or the
operation fails on them. -/
theorem applyBinding_error_cases {b : Binding} {e : RuntimeError}
    (h : applyBinding t b stack = .error e) :
    (b.arity = .variadic ∧ e = .argumentCount b.operation.name 0 .argumentList) ∨
      (∃ needed, b.arity = .fixed needed ∧ e = .missingOperand t.text needed stack.length) ∨
      ∃ vs e', b.operation.apply vs = .error e' ∧ e = nameError t e' := by
  rw [applyBinding] at h
  cases harity : b.arity with
  | variadic =>
    rw [harity] at h
    exact .inl ⟨rfl, (Except.error.inj h).symm⟩
  | fixed needed =>
    rw [harity] at h
    by_cases hlength : stack.length < needed
    · simp only [if_pos hlength] at h
      exact .inr (.inl ⟨needed, rfl, (Except.error.inj h).symm⟩)
    · simp only [if_neg hlength] at h
      cases hw : b.operation.apply (stack.take needed).reverse with
      | error e' =>
        rw [hw] at h
        exact .inr (.inr ⟨_, e', hw, (Except.error.inj h).symm⟩)
      | ok w =>
        rw [hw] at h
        cases h

/-- Putting a value on the stack does not fail. -/
theorem error_of_bind_cons {m : Evaluation σ ε Value}
    (h : (m >>= fun v => pure (v :: stack)) s = (.error failure, s')) :
    m s = (.error failure, s') := by
  obtain h | ⟨v, s₁, -, h⟩ := Evaluation.error_cases_of_bind h
  · exact h
  · exact absurd h.symm Evaluation.error_ne_ok

/-- How a token fails. -/
theorem push_error_cases (h : push lookup stack t s = (.error failure, s')) :
    (t.kind = .value ∧ failure = .fault (.parse (.invalidLiteral t.text))) ∨
      (t.kind = .symbol ∧ ∃ e, lookup t.text s = (.error e, s') ∧ failure = .lookup e) ∨
      (∃ b e, t.binding? = some b ∧ applyBinding t b stack = .error e ∧
        failure = .fault (.runtime e)) ∨
      (∃ side, t.kind = .parenthesis side) ∨ t.kind = .comma := by
  have hbinding : ∀ b, t.binding? = some b → ∃ b e, t.binding? = some b ∧
      applyBinding t b stack = .error e ∧ failure = .fault (.runtime e) := by
    intro b hb
    rw [push_binding lookup hb] at h
    obtain ⟨e, he, rfl, -⟩ := Evaluation.ofRun_eq_error_iff.mp h
    exact ⟨b, e, hb, he, rfl⟩
  cases hk : t.kind with
  | value =>
    rw [push, hk] at h
    obtain ⟨e, he, rfl, -⟩ := Evaluation.ofParse_eq_error_iff.mp (error_of_bind_cons h)
    exact .inl ⟨rfl, by rw [eq_of_ofLiteral_error he]⟩
  | symbol =>
    rw [push_symbol lookup hk] at h
    exact .inr (.inl ⟨rfl, Evaluation.ask_eq_error_iff.mp (error_of_bind_cons h)⟩)
  | operator b | function b =>
    exact .inr (.inr (.inl (hbinding b (by rw [Token.binding?, hk]))))
  | parenthesis side => exact .inr (.inr (.inr (.inl ⟨side, rfl⟩)))
  | comma => exact .inr (.inr (.inr (.inr rfl)))

private theorem single_eq_error_iff {vs : List Value} {e : RuntimeError} :
    single vs = .error e ↔ vs.length ≠ 1 ∧ e = .unbalancedExpression vs.length := by
  obtain _ | ⟨v, _ | ⟨w, vs⟩⟩ := vs <;> simp [single, eq_comm]

/-- An evaluation fails at the first token that does, or does not leave exactly one value. -/
theorem evaluate_error_cases (h : evaluate lookup ts s = (.error failure, s')) :
    (∃ before t after stack s₁, ts = before ++ t :: after ∧
      before.foldlM (push lookup) [] s = (.ok stack, s₁) ∧
      push lookup stack t s₁ = (.error failure, s')) ∨
    ∃ stack, ts.foldlM (push lookup) [] s = (.ok stack, s') ∧ stack.length ≠ 1 ∧
      failure = .fault (.runtime (.unbalancedExpression stack.length)) := by
  rw [evaluate] at h
  obtain h | ⟨stack, s₁, hfold, h⟩ := Evaluation.error_cases_of_bind h
  · exact .inl (Evaluation.exists_of_foldlM_error h)
  · obtain ⟨e, he, rfl, rfl⟩ := Evaluation.ofRun_eq_error_iff.mp h
    obtain ⟨hlength, rfl⟩ := single_eq_error_iff.mp he
    exact .inr ⟨stack, hfold, hlength, rfl⟩

end Rpn

end Formula
