import Formula.Proofs.Evaluate.Names
import Formula.Proofs.Operation.Closure
import Formula.Proofs.Token.Replacement
import Formula.Proofs.Value.Grammar

/-!
# Formulas of arithmetic

A formula of arithmetic has no truth values in it and, besides functions, no operators but those
of `Token.arithmeticSymbols`. All of them stand for operations on numbers
(`Catalog.Entry.operands_of_token`). If the lookup answers with numbers, such a formula is
computed with numbers from its first token to its last: a token that finds numbers on the stack
leaves numbers there (`Rpn.Numeric.forall_of_push`) and does not fail for their types
(`Rpn.Numeric.ne_type_of_push`). Nothing else is asked of the formula, which may fail for any
other reason (`evaluate_numbers`).
-/

namespace Formula

variable {σ ε : Type}

/-! ### The tokens of arithmetic -/

namespace Token

/-- The operators of arithmetic. -/
def arithmeticSymbols : List String := ["+", "-", "*", "/", "%", "**", "°"]

/-- The token is no truth value, and no operator but one of arithmetic. -/
structure IsArithmetic (t : Token) : Prop where
  ne_truth : t.text ≠ "true" ∧ t.text ≠ "false"
  operator : ∀ b, t.kind = .operator b → t.text ∈ arithmeticSymbols

/-- In a form that can be decided: the operator need not be found first. -/
private theorem isArithmetic_iff {t : Token} : t.IsArithmetic ↔
    (t.text ≠ "true" ∧ t.text ≠ "false") ∧
      (t.binding?.isSome = true → t.isFunction = false → t.text ∈ arithmeticSymbols) := by
  constructor
  · intro h
    refine ⟨h.ne_truth, fun hb hf => ?_⟩
    cases hk : t.kind with
    | operator b => exact h.operator b hk
    | function b => simp [isFunction, hk] at hf
    | value | symbol | parenthesis side | comma => simp [binding?, hk] at hb
  · rintro ⟨hne, h⟩
    exact ⟨hne, fun b hk => h (by simp [binding?, hk]) (by simp [isFunction, hk])⟩

instance (t : Token) : Decidable t.IsArithmetic := decidable_of_iff' _ isArithmetic_iff

end Token

deriving instance DecidableEq for OperandSort

namespace Catalog

/-- The operation of an operator, a function or a sign. -/
def Role.operation? : Role → Option Operation
  | .operator b | .function b => some b.operation
  | .sign operation => some operation
  | .parenthesis _ | .comma => none

/-- Functions and the operators of arithmetic stand for operations on numbers. -/
theorem operands_of_operation? : ∀ e ∈ entries,
    e.role.isFunction = true ∨ e.symbol ∈ Token.arithmeticSymbols →
      ∀ o ∈ e.role.operation?, o.operands = .number := by
  decide

/-- The operations of arithmetic tokens are those that take numbers. -/
theorem Entry.operands_of_token {e : Entry} (he : e ∈ entries) {position : Nat}
    {previous : Option Token} {b : Binding} (h : (e.token e.symbol position previous).IsArithmetic)
    (hb : (e.token e.symbol position previous).binding? = some b) :
    b.operation.operands = .number := by
  cases hrole : e.role with
  | operator b' =>
    obtain rfl : b' = b := by simpa [Entry.token, Token.binding?, hrole] using hb
    have hsymbol := h.operator b' (by simp only [Entry.token, hrole])
    exact operands_of_operation? e he (.inr hsymbol) _ (by rw [hrole]; rfl)
  | function b' =>
    obtain rfl : b' = b := by simpa [Entry.token, Token.binding?, hrole] using hb
    exact operands_of_operation? e he (.inl (by rw [hrole]; rfl)) _ (by rw [hrole]; rfl)
  | sign o =>
    obtain rfl : signBinding o previous = b := by
      simpa [Entry.token, Token.binding?, hrole] using hb
    have hsymbol := h.operator (signBinding o previous) (by simp only [Entry.token, hrole])
    exact operands_of_operation? e he (.inr hsymbol) _ (by rw [hrole]; rfl)
  | parenthesis side | comma => simp [Entry.token, Token.binding?, hrole] at hb

end Catalog

namespace Rpn

variable {lookup : Lookup σ ε} {ts post : List Token} {t u : Token} {stack stack' : List Value}
  {s s' : σ} {failure : Failure ε}

/-- The token is no truth value, and applies no operation but one on numbers. -/
structure Numeric (t : Token) : Prop where
  ne_truth : t.text ≠ "true" ∧ t.text ≠ "false"
  operands : ∀ b, t.binding? = some b → b.operation.operands = .number

/-- The settled arity of a function does not change its operation. -/
theorem Numeric.withArity (h : Numeric t) (n : Nat) : Numeric (t.withArity n) where
  ne_truth := by
    rw [t.text_withArity]
    exact h.ne_truth
  operands := by
    intro b hb
    cases hk : t.kind with
    | function b' =>
      obtain rfl : { b' with arity := .fixed n } = b := by
        simpa [Token.withArity, Token.binding?, hk] using hb
      exact h.operands b' (by rw [Token.binding?, hk])
    | value | symbol | operator b' | parenthesis side | comma =>
      rw [Token.withArity, hk] at hb
      exact h.operands b hb

/-- The tokens of a text have the bindings of their symbols. -/
theorem numeric_of_tokenize {expression : String}
    (hts : Token.tokenize (Text.normalize expression) = .ok ts) (ht : t ∈ ts)
    (h : t.IsArithmetic) : Numeric t where
  ne_truth := h.ne_truth
  operands := by
    intro b hb
    obtain ⟨e, he, position, previous, rfl⟩ := Word.exists_entry_of_binding hts ht hb
    exact Catalog.Entry.operands_of_token he h hb

/-- What comes out of the yard applies the operations that went in. -/
theorem numeric_of_ofTokens (h : ofTokens ts = .ok post) (hts : ∀ t ∈ ts, Numeric t) :
    ∀ u ∈ post, Numeric u := by
  obtain ⟨placed, rfl, harrangement⟩ := exists_arrangement h
  refine List.forall_mem_map.mpr fun p hp => ?_
  obtain ⟨t, ht⟩ := harrangement.settled p hp
  have hnumeric := hts t (List.mem_of_getElem? ht.found)
  obtain hsame | ⟨-, n, hsame⟩ := ht.same
  · rwa [hsame]
  · rw [hsame]
    exact hnumeric.withArity n

/-! ### One token -/

/-- A literal that is no truth value has a number for its value. -/
theorem isNumber_of_ofLiteral {v : Value} (ht : t.text ≠ "true" ∧ t.text ≠ "false")
    (h : Value.ofLiteral t.text = .ok v) : v.IsNumber := by
  refine Value.isNumber_iff.mpr ?_
  rintro b rfl
  have htext := (Value.ofLiteral_eq_boolean_iff b).mp h
  cases b with
  | false => exact ht.2 htext
  | true => exact ht.1 htext

/-- The errors of an operation keep their sort under any name. -/
theorem eq_type_of_nameError {e : RuntimeError} {name : String} {fault : TypeFault}
    (h : nameError t e = .type name fault) : ∃ name', e = .type name' fault := by
  rw [nameError] at h
  split at h
  · cases e <;> cases h
    exact ⟨_, rfl⟩
  · exact ⟨name, h⟩

/-- The answers of the lookup are numbers. -/
def AnswersNumbers (lookup : Lookup σ ε) : Prop :=
  ∀ name s v s', lookup name s = (.ok v, s') → v.IsNumber

namespace Numeric

/-- On numbers the token's operation does not fail for a type. -/
theorem ne_type_of_applyBinding (ht : Numeric t) {b : Binding} (hb : t.binding? = some b)
    (hstack : ∀ v ∈ stack, v.IsNumber) (name : String) (fault : TypeFault) :
    applyBinding t b stack ≠ .error (.type name fault) := by
  intro h
  rw [applyBinding] at h
  cases harity : b.arity with
  | variadic =>
    rw [harity] at h
    cases h
  | fixed needed =>
    simp only [harity] at h
    split at h
    · cases h
    · cases hw : b.operation.apply (stack.take needed).reverse with
      | ok w =>
        rw [hw] at h
        cases h
      | error e =>
        rw [hw] at h
        obtain ⟨name', rfl⟩ := eq_type_of_nameError (Except.error.inj h)
        refine Operation.ne_type_of_apply (ht.operands b hb) (fun v hv => ?_) _ _ hw
        exact hstack v (List.mem_of_mem_take (List.mem_reverse.mp hv))

/-- A token that finds numbers on the stack does not fail for their types. -/
theorem ne_type_of_push (ht : Numeric t) (hstack : ∀ v ∈ stack, v.IsNumber)
    (h : push lookup stack t s = (.error failure, s')) (name : String) (fault : TypeFault) :
    failure ≠ .fault (.runtime (.type name fault)) := by
  obtain ⟨-, rfl⟩ | ⟨-, e, -, rfl⟩ | ⟨b, e, hb, he, rfl⟩ | ⟨side, hk⟩ | hk := push_error_cases h
  · intro htype
    cases htype
  · intro htype
    cases htype
  · intro htype
    obtain rfl := Error.runtime.inj (Failure.fault.inj htype)
    exact ht.ne_type_of_applyBinding hb hstack name fault he
  · rw [push, hk] at h
    obtain ⟨e, -, rfl, -⟩ := Evaluation.ofParse_eq_error_iff.mp h
    intro htype
    cases htype
  · rw [push, hk] at h
    obtain ⟨e, -, rfl, -⟩ := Evaluation.ofParse_eq_error_iff.mp h
    intro htype
    cases htype

/-- A token that finds numbers on the stack leaves numbers there. -/
theorem forall_of_push (ht : Numeric t) (hlookup : AnswersNumbers lookup)
    (hstack : ∀ v ∈ stack, v.IsNumber) (h : push lookup stack t s = (.ok stack', s')) :
    ∀ v ∈ stack', v.IsNumber := by
  have hbinding : ∀ b, t.binding? = some b → ∀ v ∈ stack', v.IsNumber := by
    intro b hb
    rw [push_binding lookup hb] at h
    obtain ⟨needed, w, -, -, hw, rfl⟩ :=
      exists_of_applyBinding (Evaluation.ofRun_eq_ok_iff.mp h).1
    refine List.forall_mem_cons.mpr ⟨Operation.isNumber_of_apply (ht.operands b hb) hw, ?_⟩
    exact fun v hv => hstack v (List.mem_of_mem_drop hv)
  cases hk : t.kind with
  | value =>
    rw [push, hk] at h
    obtain ⟨v, s₁, hv, hrest⟩ := Evaluation.exists_of_bind h
    obtain rfl : v :: stack = stack' := Except.ok.inj (congrArg Prod.fst hrest)
    have hliteral := (Evaluation.ofParse_eq_ok_iff.mp hv).1
    exact List.forall_mem_cons.mpr ⟨isNumber_of_ofLiteral ht.ne_truth hliteral, hstack⟩
  | symbol =>
    rw [push_symbol lookup hk] at h
    obtain ⟨v, s₁, hv, hrest⟩ := Evaluation.exists_of_bind h
    obtain rfl : v :: stack = stack' := Except.ok.inj (congrArg Prod.fst hrest)
    exact List.forall_mem_cons.mpr
      ⟨hlookup t.text s v s₁ (Evaluation.ask_eq_ok_iff.mp hv), hstack⟩
  | operator b | function b => exact hbinding b (by rw [Token.binding?, hk])
  | parenthesis side | comma =>
    rw [push, hk] at h
    exact absurd h Evaluation.error_ne_ok

end Numeric

/-! ### A row of tokens -/

/-- Where there were numbers on the stack, there are numbers behind any row of tokens. -/
theorem forall_of_foldlM_push (hlookup : AnswersNumbers lookup) (hts : ∀ t ∈ ts, Numeric t)
    (hstack : ∀ v ∈ stack, v.IsNumber) (h : ts.foldlM (push lookup) stack s = (.ok stack', s')) :
    ∀ v ∈ stack', v.IsNumber := by
  induction ts generalizing stack s with
  | nil =>
    obtain rfl : stack = stack' := Except.ok.inj (congrArg Prod.fst h)
    exact hstack
  | cons t ts ih =>
    obtain ⟨ht, hts⟩ := List.forall_mem_cons.mp hts
    rw [List.foldlM_cons] at h
    obtain ⟨stack₁, s₁, hpush, hrest⟩ := Evaluation.exists_of_bind h
    exact ih hts (ht.forall_of_push hlookup hstack hpush) hrest

/-- An evaluation with numbers does not fail for a type. -/
theorem ne_type_of_evaluate (hlookup : AnswersNumbers lookup) (hts : ∀ t ∈ ts, Numeric t)
    (h : evaluate lookup ts s = (.error failure, s')) (name : String) (fault : TypeFault) :
    failure ≠ .fault (.runtime (.type name fault)) := by
  obtain ⟨before, t, after, stack, s₁, rfl, hbefore, hpush⟩ | ⟨stack, -, -, rfl⟩ :=
    evaluate_error_cases h
  · have hstack : ∀ v ∈ stack, v.IsNumber :=
      forall_of_foldlM_push hlookup (fun u hu => hts u (by simp [hu])) (by simp) hbefore
    exact (hts t (by simp)).ne_type_of_push hstack hpush name fault
  · exact nofun

/-- The tokens of a formula of arithmetic are so in the order of evaluation. -/
theorem numeric_of_ofText {expression : String}
    (htokens : ∀ ts, Token.tokenize (Text.normalize expression) = .ok ts →
      ∀ t ∈ ts, t.IsArithmetic)
    (h : ofText expression = .ok post) : ∀ t ∈ post, Numeric t := by
  rw [ofText] at h
  cases hts : Token.tokenize (Text.normalize expression) with
  | error e =>
    rw [hts] at h
    cases h
  | ok ts =>
    rw [hts] at h
    exact numeric_of_ofTokens h fun t ht => numeric_of_tokenize hts ht (htokens ts hts t ht)

end Rpn

variable {lookup : Lookup σ ε} {expression : String}

/-- **Arithmetic stays with numbers.** A formula whose operators are those of arithmetic and that
has no truth values in it, with a lookup that answers with numbers, has no truth value for its
value and does not fail for a type, and behind each of its tokens there are only numbers on the
stack. -/
theorem evaluate_numbers
    (htokens : ∀ ts, Token.tokenize (Text.normalize expression) = .ok ts →
      ∀ t ∈ ts, t.IsArithmetic)
    (hlookup : ∀ name s v s', lookup name s = (.ok v, s') → v.IsNumber) (s : σ) :
    (∀ v s', evaluate lookup expression s = (.ok v, s') → v.IsNumber) ∧
      (∀ name fault s',
        evaluate lookup expression s ≠ (.error (.fault (.runtime (.type name fault))), s')) ∧
      ∀ before after, Rpn.ofText expression = .ok (before ++ after) →
        ∀ stack s', before.foldlM (Rpn.push lookup) [] s = (.ok stack, s') →
          ∀ v ∈ stack, v.IsNumber := by
  have hpost : ∀ {post}, Rpn.ofText expression = .ok post → ∀ t ∈ post, Rpn.Numeric t :=
    Rpn.numeric_of_ofText htokens
  refine ⟨fun v s' h => ?_, fun name fault s' h => ?_, fun before after hsplit stack s' h => ?_⟩
  · rw [evaluate] at h
    obtain ⟨post, s₁, hread, h⟩ := Evaluation.exists_of_bind h
    have hnumeric := hpost (Evaluation.ofParse_eq_ok_iff.mp hread).1
    have hfold := Rpn.foldlM_push_eq_of_evaluate h
    exact Rpn.forall_of_foldlM_push hlookup hnumeric (by simp) hfold v (List.mem_singleton_self v)
  · rw [evaluate] at h
    obtain h | ⟨post, s₁, hread, h⟩ := Evaluation.error_cases_of_bind h
    · obtain ⟨e, -, he, -⟩ := Evaluation.ofParse_eq_error_iff.mp h
      cases he
    · have hnumeric := hpost (Evaluation.ofParse_eq_ok_iff.mp hread).1
      exact Rpn.ne_type_of_evaluate hlookup hnumeric h name fault rfl
  · have hnumeric := hpost hsplit
    exact Rpn.forall_of_foldlM_push hlookup
      (fun t ht => hnumeric t (List.mem_append_left after ht)) (by simp) h

/-- In `max(x,2)/0.5+7%3` integers meet floating-point numbers. -/
theorem evaluate_numbers_quotient :
    let lookup : Lookup Unit Error := fun _ s => (.ok (.integer 4), s)
    (evaluate lookup "max(x,2)/0.5+7%3" ()).1 = .ok (.float (.ofNat false 9)) ∧
      (Value.float (.ofNat false 9)).IsNumber := by
  intro lookup
  have htokens : ∀ ts, Token.tokenize (Text.normalize "max(x,2)/0.5+7%3") = .ok ts →
      ∀ t ∈ ts, t.IsArithmetic := by
    intro ts hts
    have hread : Token.tokenize (Text.normalize "max(x,2)/0.5+7%3") = .ok
        [⟨"max", .function ⟨.max, 0, .variadic, false⟩, 0⟩, ⟨"(", .parenthesis .opening, 3⟩,
          ⟨"x", .symbol, 4⟩, ⟨",", .comma, 5⟩, ⟨"2", .value, 6⟩, ⟨")", .parenthesis .closing, 7⟩,
          ⟨"/", .operator ⟨.divide, 5, .fixed 2, false⟩, 8⟩, ⟨"0.5", .value, 9⟩,
          ⟨"+", .operator ⟨.plus, 6, .fixed 2, false⟩, 12⟩, ⟨"7", .value, 13⟩,
          ⟨"%", .operator ⟨.modulo, 5, .fixed 2, false⟩, 14⟩, ⟨"3", .value, 15⟩] := by
      decide +kernel
    obtain rfl := Except.ok.inj (hread.symm.trans hts)
    decide
  have hlookup : ∀ name s v s', lookup name s = (.ok v, s') → v.IsNumber := by
    intro name s v s' h
    obtain rfl := Except.ok.inj (congrArg Prod.fst h)
    exact .integer 4
  have hvalue : (evaluate lookup "max(x,2)/0.5+7%3" ()).1 = .ok (.float (.ofNat false 9)) := by
    decide +kernel
  exact ⟨hvalue, (evaluate_numbers htokens hlookup ()).1 _ () (Prod.ext hvalue rfl)⟩

end Formula
