import Formula.Proofs.Rpn.Unplaced
import Formula.Proofs.Yard.Replacement

/-!
# Evaluation on a stack

A token sees no more of the stack than its operands. So tokens that are evaluated without
variables to a value put this value on any stack, whatever lookup stands ready
(`Rpn.foldlM_push_of_evaluate`), and in place of a name they do what an answer to the name does
(`Rpn.foldlM_push_replace`).
-/

namespace Formula

variable {σ ε : Type}

/-- The lookup with its answer for one name replaced by a value. -/
def Lookup.update (lookup : Lookup σ ε) (name : String) (v : Value) : Lookup σ ε :=
  fun asked s => if asked = name then (.ok v, s) else lookup asked s

namespace Rpn

variable {t : Token} {stack stack' base : List Value} {v : Value}

/-! ### One token -/

theorem push_value (lookup : Lookup σ ε) (hk : t.kind = .value)
    (hv : Value.ofLiteral t.text = .ok v) (stack : List Value) :
    push lookup stack t = pure (v :: stack) := by
  rw [push, hk]
  simp only [hv]
  rfl

theorem push_symbol (lookup : Lookup σ ε) (hk : t.kind = .symbol) (stack : List Value) :
    push lookup stack t = Evaluation.ask lookup t.text >>= fun v => pure (v :: stack) := by
  rw [push, hk]

theorem push_binding (lookup : Lookup σ ε) {b : Binding} (hb : t.binding? = some b)
    (stack : List Value) : push lookup stack t = .ofRun (applyBinding t b stack) := by
  cases hk : t.kind with
  | operator b' | function b' =>
    obtain rfl : b' = b := by simpa [Token.binding?, hk] using hb
    rw [push, hk]
  | value | symbol | parenthesis side | comma => simp [Token.binding?, hk] at hb

/-- A binding that is applied has found its operands on top. -/
theorem exists_of_applyBinding {b : Binding} (h : applyBinding t b stack = .ok stack') :
    ∃ needed w, b.arity = .fixed needed ∧ needed ≤ stack.length ∧
      b.operation.apply (stack.take needed).reverse = .ok w ∧ stack' = w :: stack.drop needed := by
  rw [applyBinding] at h
  cases hb : b.arity with
  | variadic =>
    rw [hb] at h
    cases h
  | fixed needed =>
    rw [hb] at h
    by_cases hlength : stack.length < needed
    · simp [hlength] at h
    · simp only [if_neg hlength] at h
      cases hw : b.operation.apply (stack.take needed).reverse with
      | error e =>
        rw [hw] at h
        cases h
      | ok w =>
        rw [hw] at h
        exact ⟨needed, w, rfl, Nat.le_of_not_lt hlength, hw, (Except.ok.inj h).symm⟩

/-- What lies below the operands of a binding does not matter to it. -/
theorem applyBinding_append {b : Binding} (h : applyBinding t b stack = .ok stack')
    (base : List Value) : applyBinding t b (stack ++ base) = .ok (stack' ++ base) := by
  obtain ⟨needed, w, hb, hle, hw, rfl⟩ := exists_of_applyBinding h
  have hlength : ¬(stack ++ base).length < needed := by
    rw [List.length_append]
    omega
  rw [applyBinding, hb]
  simp only [if_neg hlength, List.take_append_of_le_length hle,
    List.drop_append_of_le_length hle, hw]
  rfl

/-- A token that is evaluated without variables is evaluated with any others on the stack and
with any lookup. -/
theorem push_append {s s' : σ} (h : push Lookup.noVariables stack t s = (.ok stack', s'))
    {τ : Type} (lookup : Lookup τ ε) (base : List Value) :
    push lookup (stack ++ base) t = pure (stack' ++ base) := by
  have hbinding : ∀ b, t.binding? = some b →
      push lookup (stack ++ base) t = pure (stack' ++ base) := by
    intro b hb
    rw [push_binding _ hb] at h ⊢
    cases happly : applyBinding t b stack with
    | error e =>
      rw [happly] at h
      exact absurd h Evaluation.error_ne_ok
    | ok vs =>
      rw [happly] at h
      obtain rfl : vs = stack' := Except.ok.inj (congrArg Prod.fst h)
      rw [applyBinding_append happly]
      rfl
  cases hk : t.kind with
  | value =>
    cases hv : Value.ofLiteral t.text with
    | error e =>
      rw [push, hk] at h
      simp only [hv] at h
      exact absurd h Evaluation.error_ne_ok
    | ok v =>
      rw [push_value _ hk hv] at h
      obtain rfl : v :: stack = stack' := Except.ok.inj (congrArg Prod.fst h)
      rw [push_value _ hk hv, List.cons_append]
  | symbol =>
    -- without variables a name has no value
    rw [push_symbol _ hk] at h
    exact absurd h Evaluation.error_ne_ok
  | operator b | function b => exact hbinding b (by rw [Token.binding?, hk])
  | parenthesis side | comma =>
    rw [push, hk] at h
    exact absurd h Evaluation.error_ne_ok

/-! ### A row of tokens -/

private theorem single_eq_ok_iff {vs : List Value} : single vs = .ok v ↔ vs = [v] := by
  obtain _ | ⟨w, _ | ⟨w', vs⟩⟩ := vs <;> simp [single]

/-- A row of tokens without variables leaves what is below on the stack alone, and needs no lookup.
-/
private theorem foldlM_push_append {ts : List Token} {s s' : σ}
    (h : ts.foldlM (push Lookup.noVariables) stack s = (.ok stack', s'))
    {τ : Type} (lookup : Lookup τ ε) (base : List Value) :
    ts.foldlM (push lookup) (stack ++ base) = pure (stack' ++ base) := by
  induction ts generalizing stack s with
  | nil =>
    obtain rfl : stack = stack' := Except.ok.inj (congrArg Prod.fst h)
    rfl
  | cons t ts ih =>
    rw [List.foldlM_cons] at h
    obtain ⟨vs, s₁, hpush, hrest⟩ := Evaluation.exists_of_bind h
    rw [List.foldlM_cons, push_append hpush, pure_bind]
    exact ih hrest

/-- Where there is a value in the end, it is alone on the stack. -/
theorem foldlM_push_eq_of_evaluate {lookup : Lookup σ ε} {ts : List Token} {s s' : σ}
    (h : evaluate lookup ts s = (.ok v, s')) : ts.foldlM (push lookup) [] s = (.ok [v], s') := by
  rw [evaluate] at h
  obtain ⟨vs, s₁, hfold, hsingle⟩ := Evaluation.exists_of_bind h
  obtain ⟨hvs, rfl⟩ := Evaluation.ofRun_eq_ok_iff.mp hsingle
  obtain rfl : vs = [v] := single_eq_ok_iff.mp hvs
  exact hfold

/-- **What has a value without variables puts this value on any stack.** -/
theorem foldlM_push_of_evaluate {ts : List Token} {s s' : σ}
    (h : evaluate Lookup.noVariables ts s = (.ok v, s')) {τ : Type} (lookup : Lookup τ ε)
    (stack : List Value) : ts.foldlM (push lookup) stack = pure (v :: stack) :=
  foldlM_push_append (foldlM_push_eq_of_evaluate h) lookup stack

variable {name : String} {lookup : Lookup σ ε}

private theorem ask_update_self (lookup : Lookup σ ε) (name : String) (v : Value) :
    Evaluation.ask (lookup.update name v) name = pure v := by
  funext s
  simp only [Evaluation.ask, Lookup.update, if_pos]
  rfl

/-- A new answer for one name changes no other answer. -/
private theorem ask_update_of_ne {asked : String} (h : asked ≠ name) :
    Evaluation.ask (lookup.update name v) asked = Evaluation.ask lookup asked := by
  funext s
  simp only [Evaluation.ask, Lookup.update, if_neg h]

/-- The answer for one name is nothing to the other tokens. -/
theorem push_update_of_ne (h : t.kind = .symbol → t.text ≠ name) (stack : List Value) :
    push (lookup.update name v) stack t = push lookup stack t := by
  cases hk : t.kind with
  | symbol => rw [push_symbol _ hk, push_symbol _ hk, ask_update_of_ne (h hk)]
  | value | operator b | function b | parenthesis side | comma => rw [push, push, hk]

/-- Tokens that come to a value may stand for a name to which this value is the answer. -/
theorem foldlM_push_replace {p : Token → Bool} {post : List Token}
    (hp : ∀ t, p t = true ↔ t.kind = .symbol ∧ t.text = name)
    (hpost : ∀ stack, post.foldlM (push lookup) stack = pure (v :: stack)) (ts : List Token)
    (stack : List Value) :
    (replaceAll p post ts).foldlM (push lookup) stack =
      ts.foldlM (push (lookup.update name v)) stack := by
  induction ts generalizing stack with
  | nil => rfl
  | cons t ts ih =>
    have hstep : (if p t then post else [t]).foldlM (push lookup) stack =
        push (lookup.update name v) stack t := by
      by_cases ht : p t = true
      · obtain ⟨hk, rfl⟩ := (hp t).mp ht
        rw [if_pos ht, hpost, push_symbol _ hk, ask_update_self, pure_bind]
      · have hne : t.kind = .symbol → t.text ≠ name := fun hk h => ht ((hp t).mpr ⟨hk, h⟩)
        rw [if_neg ht, push_update_of_ne hne, List.foldlM_cons]
        exact bind_pure _
    rw [replaceAll_cons, List.foldlM_append, hstep, List.foldlM_cons]
    exact congrArg _ (funext ih)

end Rpn

end Formula
