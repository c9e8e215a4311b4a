import Formula.Proofs.Evaluation
import Formula.Proofs.Rpn.Stack
import Formula.Proofs.Token.Slices
import Formula.Trace

/-!
# The account of an evaluation is true

The account that `Trace.evaluate` keeps tells of the evaluation that `evaluate` makes, and of all
of it. The part about the stack is described by `Rpn.Account`: one entry for each token that is
evaluated in front of the first failure, each with the value that is on top of the stack behind
it and with the height of the stack, which `Rpn.Rises` traces from token to token.

The account of a row of tokens is that of the first token in front of the account of the others
(`Rpn.Account.cons`), so that it is found along the fold over the tokens
(`Trace.exists_account`). The tokens of the text and the failures of reading are in front of
that, and `Trace.run_eq` puts the parts together.
-/

namespace Formula

variable {σ ε : Type}

namespace Rpn

variable {t : Token} {stack stack' : List Value} {s s' : σ} {post : List Token}
  {failure : Failure ε}

/-- A token that has been evaluated, with its value and the height of the stack behind it. -/
structure Pushed where
  token : Token
  value : Value
  depth : Nat

/-- The event of a token that has been evaluated. -/
def Pushed.event (p : Pushed) : Event := .push p.token.text p.value.text p.depth

/-- How high the stack is behind a token, if it is `height` high in front of it. -/
inductive Rises (t : Token) (height : Nat) : Nat → Prop where
  | value (h : t.kind = .value) : Rises t height (height + 1)
  | symbol (h : t.kind = .symbol) : Rises t height (height + 1)
  /-- The operands are taken from the stack, which holds all of them. -/
  | binding {b : Binding} {n : Nat} (hb : t.kind = .operator b ∨ t.kind = .function b)
      (hn : b.arity = .fixed n) (hle : n ≤ height) : Rises t height (height + 1 - n)

private theorem Rises.pos {height depth : Nat} (h : Rises t height depth) : 1 ≤ depth := by
  cases h with
  | value | symbol => omega
  | binding hb hn hle => omega

/-- The height of the stack behind tokens that have been evaluated on a stack of the given
height. -/
def depthBehind (height : Nat) (before : List Pushed) : Nat :=
  (before.getLast?.map (·.depth)).getD height

private theorem depthBehind_cons (height : Nat) (p : Pushed) (before : List Pushed) :
    depthBehind height (p :: before) = depthBehind p.depth before := by
  cases before with
  | nil => rfl
  | cons q before =>
    rw [depthBehind, depthBehind, List.getLast?_cons_cons, List.getLast?_cons, Option.map_some]
    rfl

/-- What `pushed` says about the evaluation of the tokens `post` on a stack: it has an entry for
each of them up to the first at which the evaluation fails. -/
structure Account (lookup : Lookup σ ε) (stack : List Value) (s : σ) (post : List Token)
    (pushed : List Pushed) : Prop where
  inOrder : pushed.map (·.token) <+: post
  /-- A value that is entered is on top of the stack behind its token, and the stack is as high
  as the entry says. -/
  evaluated : ∀ before p after, pushed = before ++ p :: after → ∃ rest s',
    ((before ++ [p]).map (·.token)).foldlM (push lookup) stack s = (.ok (p.value :: rest), s') ∧
      p.depth = rest.length + 1
  /-- At the first token that has no entry the evaluation fails. -/
  failed : ∀ t rest, post = pushed.map (·.token) ++ t :: rest → ∃ failure s',
    (pushed.map (·.token) ++ [t]).foldlM (push lookup) stack s = (.error failure, s')
  rises : ∀ before p after, pushed = before ++ p :: after →
    Rises p.token (depthBehind stack.length before) p.depth

/-! ### One token -/

/-- What a token does to the stack. -/
theorem exists_of_push {lookup : Lookup σ ε} (h : push lookup stack t s = (.ok stack', s')) :
    ∃ v rest, stack' = v :: rest ∧ Rises t stack.length (rest.length + 1) := by
  have hbinding : ∀ b, t.kind = .operator b ∨ t.kind = .function b →
      ∃ v rest, stack' = v :: rest ∧ Rises t stack.length (rest.length + 1) := by
    intro b hb
    have hfound : t.binding? = some b := by
      rw [Token.binding?]
      obtain hk | hk := hb <;> rw [hk]
    rw [push_binding lookup hfound, Evaluation.ofRun_eq_ok_iff] at h
    obtain ⟨needed, v, hneeded, hle, -, rfl⟩ := exists_of_applyBinding h.1
    have hrises := Rises.binding hb hneeded hle
    refine ⟨v, stack.drop needed, rfl, ?_⟩
    rwa [List.length_drop, ← Nat.sub_add_comm hle]
  cases hk : t.kind with
  | value =>
    rw [push, hk] at h
    obtain ⟨v, s₁, -, hv⟩ := Evaluation.exists_of_bind h
    exact ⟨v, stack, (Except.ok.inj (congrArg Prod.fst hv)).symm, .value hk⟩
  | symbol =>
    rw [push_symbol lookup hk] at h
    obtain ⟨v, s₁, -, hv⟩ := Evaluation.exists_of_bind h
    exact ⟨v, stack, (Except.ok.inj (congrArg Prod.fst hv)).symm, .symbol hk⟩
  | operator b => exact hbinding b (.inl hk)
  | function b => exact hbinding b (.inr hk)
  | parenthesis side | comma =>
    rw [push, hk] at h
    exact absurd h Evaluation.error_ne_ok

/-! ### A row of tokens -/

namespace Account

variable {lookup : Lookup σ ε} {pushed : List Pushed} {v : Value}

private theorem nil (lookup : Lookup σ ε) (stack : List Value) (s : σ) :
    Account lookup stack s [] [] where
  inOrder := List.prefix_refl _
  evaluated := fun before p after h => absurd h (by simp)
  failed := fun t rest h => absurd h (by simp)
  rises := fun before p after h => absurd h (by simp)

/-- Nothing is entered from the token on at which the evaluation fails. -/
theorem of_failure (h : push lookup stack t s = (.error failure, s')) (post : List Token) :
    Account lookup stack s (t :: post) [] where
  inOrder := List.nil_prefix
  evaluated := fun before p after h => absurd h (by simp)
  failed := by
    intro t' rest hpost
    obtain ⟨rfl, -⟩ := List.cons.inj hpost
    refine ⟨failure, s', ?_⟩
    rw [List.map_nil, List.nil_append, List.foldlM_cons, Evaluation.bind_apply, h]
  rises := fun before p after h => absurd h (by simp)

/-- The entry of a token that is evaluated, in front of the account of the others. -/
theorem cons {rest : List Value} (h : push lookup stack t s = (.ok (v :: rest), s'))
    (hrest : Account lookup (v :: rest) s' post pushed) :
    Account lookup stack s (t :: post) (⟨t, v, rest.length + 1⟩ :: pushed) := by
  have hstep : ∀ ts : List Token, (t :: ts).foldlM (push lookup) stack s =
      ts.foldlM (push lookup) (v :: rest) s' := by
    intro ts
    rw [List.foldlM_cons, Evaluation.bind_apply, h]
  refine ⟨(List.prefix_cons_inj t).mpr hrest.inOrder, ?_, ?_, ?_⟩
  · intro before p after hpushed
    obtain _ | ⟨q, before⟩ := before
    · obtain ⟨rfl, -⟩ := List.cons.inj hpushed
      exact ⟨rest, s', hstep [], rfl⟩
    · obtain ⟨rfl, htail⟩ := List.cons.inj hpushed
      rw [List.cons_append, List.map_cons, hstep]
      exact hrest.evaluated before p after htail
  · intro t' rest' hpost
    rw [List.map_cons, List.cons_append, hstep]
    exact hrest.failed t' rest' (List.cons.inj hpost).2
  · intro before p after hpushed
    obtain _ | ⟨q, before⟩ := before
    · obtain ⟨rfl, -⟩ := List.cons.inj hpushed
      obtain ⟨w, ws, heq, hrises⟩ := exists_of_push h
      obtain ⟨-, rfl⟩ := List.cons.inj heq
      exact hrises
    · obtain ⟨rfl, htail⟩ := List.cons.inj hpushed
      rw [depthBehind_cons]
      exact hrest.rises before p after htail

/-- Behind every entry there is at least one value on the stack. -/
private theorem one_le_depth (h : Account lookup stack s post pushed) :
    ∀ p ∈ pushed, 1 ≤ p.depth := by
  intro p hp
  obtain ⟨before, after, hpushed⟩ := List.append_of_mem hp
  exact (h.rises before p after hpushed).pos

/-- All tokens are entered if the evaluation gets to its end. -/
theorem complete (h : Account lookup stack s post pushed)
    (hpost : post.foldlM (push lookup) stack s = (.ok stack', s')) :
    pushed.map (·.token) = post := by
  obtain ⟨rest, hrest⟩ := h.inOrder
  obtain _ | ⟨t, rest⟩ := rest
  · rwa [List.append_nil] at hrest
  · obtain ⟨failure, s₁, hfailed⟩ := h.failed t rest hrest.symm
    rw [← hrest, ← List.singleton_append, ← List.append_assoc, List.foldlM_append] at hpost
    obtain ⟨stack₁, s₂, hok, -⟩ := Evaluation.exists_of_bind hpost
    exact absurd (hfailed.symm.trans hok) Evaluation.error_ne_ok

/-- The last entry tells of the one value that is left. -/
theorem exists_getLast? (h : Account lookup [] s post pushed)
    (hpost : post.foldlM (push lookup) [] s = (.ok [v], s')) :
    ∃ p ∈ pushed.getLast?, p.depth = 1 ∧ p.value = v := by
  have hcomplete := h.complete hpost
  obtain rfl | ⟨before, p, rfl⟩ := List.eq_nil_or_concat pushed
  · -- no value comes from no tokens
    rw [← hcomplete] at hpost
    have hnil : ([] : List Value) = [v] := Except.ok.inj (congrArg Prod.fst hpost)
    exact absurd hnil (by simp)
  · rw [List.concat_eq_append] at h hcomplete ⊢
    obtain ⟨rest, s₁, hevaluated, hdepth⟩ := h.evaluated before p [] rfl
    rw [hcomplete, hpost] at hevaluated
    obtain ⟨rfl, rfl⟩ := List.cons.inj (Except.ok.inj (congrArg Prod.fst hevaluated))
    exact ⟨p, by simp, hdepth, rfl⟩

end Account

end Rpn

namespace Trace

open Rpn (Account Pushed)

variable {stack stack' : List Value} {t : Token} {s s' : σ} {log : List Event}
  {failure : Failure ε}

/-! ### Beside the account -/

/-- A lookup does not see the account that is kept beside the caller's state. -/
theorem push_lookup (f : Lookup σ ε) (stack : List Value) (t : Token) (s : σ) (log : List Event) :
    Rpn.push (lookup f) stack t (s, log) =
      ((Rpn.push f stack t s).1, (Rpn.push f stack t s).2, log) := by
  have hresult : ∀ {α : Type} (r : Except Error α),
      (Evaluation.ofResult r : Evaluation (Recorded σ) ε α) (s, log) =
        (((Evaluation.ofResult r : Evaluation σ ε α) s).1, s, log) := by
    intro α r
    cases r <;> rfl
  cases hk : t.kind with
  | value =>
    simp only [Rpn.push, hk, Evaluation.bind_apply, Evaluation.ofParse]
    cases hv : Value.ofLiteral t.text <;> rfl
  | symbol =>
    simp only [Rpn.push, hk, Evaluation.bind_apply, Evaluation.ask, lookup]
    obtain ⟨_ | v, s'⟩ := f t.text s <;> rfl
  | operator b | function b =>
    simp only [Rpn.push, hk, Evaluation.ofRun]
    cases Rpn.applyBinding t b stack <;> rfl
  | parenthesis side | comma =>
    simp only [Rpn.push, hk]
    rfl

/-- A token that fails enters nothing. -/
theorem push_of_error {f : Lookup σ ε} (h : Rpn.push f stack t s = (.error failure, s'))
    (log : List Event) : push f stack t (s, log) = (.error failure, s', log) := by
  rw [push, Evaluation.bind_apply, push_lookup, h]

/-- A token that is evaluated is entered with what it has put on the stack. -/
theorem push_of_ok {f : Lookup σ ε} {v : Value} {rest : List Value}
    (h : Rpn.push f stack t s = (.ok (v :: rest), s')) (log : List Event) :
    push f stack t (s, log) =
      (.ok (v :: rest), s', Pushed.event ⟨t, v, rest.length + 1⟩ :: log) := by
  rw [push, Evaluation.bind_apply, push_lookup, h]
  rfl

/-- Tokens are entered into the account in their order, on top of what is there. -/
private theorem forM_record (ts : List Token) (s : σ) (log : List Event) :
    (ts.forM fun t => record (ε := ε) (found t)) (s, log) =
      (.ok (), s, (ts.map found).reverse ++ log) := by
  induction ts generalizing log with
  | nil => rfl
  | cons t ts ih =>
    rw [List.forM, Evaluation.bind_apply, record]
    simp only [ih, List.map_cons, List.reverse_cons, List.append_assoc, List.singleton_append]

/-- **The account of a row of tokens.** Keeping it changes nothing about their evaluation. -/
theorem exists_account (f : Lookup σ ε) (post : List Token) (stack : List Value) (s : σ)
    (log : List Event) :
    ∃ pushed, Account f stack s post pushed ∧ post.foldlM (push f) stack (s, log) =
      ((post.foldlM (Rpn.push f) stack s).1, (post.foldlM (Rpn.push f) stack s).2,
        (pushed.map Pushed.event).reverse ++ log) := by
  induction post generalizing stack s log with
  | nil => exact ⟨[], .nil f stack s, rfl⟩
  | cons t post ih =>
    rw [List.foldlM_cons, List.foldlM_cons, Evaluation.bind_apply, Evaluation.bind_apply]
    rcases hpush : Rpn.push f stack t s with ⟨failure | stack', s'⟩
    · refine ⟨[], .of_failure hpush post, ?_⟩
      rw [push_of_error hpush]
      rfl
    · obtain ⟨v, rest, rfl, -⟩ := Rpn.exists_of_push hpush
      rw [push_of_ok hpush]
      obtain ⟨pushed, haccount, hfold⟩ :=
        ih (v :: rest) s' (Pushed.event ⟨t, v, rest.length + 1⟩ :: log)
      refine ⟨⟨t, v, rest.length + 1⟩ :: pushed, .cons hpush haccount, ?_⟩
      simp only [hfold, List.map_cons, List.reverse_cons, List.append_assoc,
        List.singleton_append]

/-! ### From the text to the value -/

/-- What is entered at the end. -/
def conclusion : Except (Failure ε) Value → List Event
  | .ok v => [.evaluated v.text]
  | .error _ => []

/-- What `evaluate` does with tokens in the order of their evaluation. -/
def evaluateRpn (f : Lookup σ ε) (post : List Token) : Evaluation (Recorded σ) ε Value := do
  record (.parsed (Token.display post))
  let v ← .ofRun (Rpn.single (← post.foldlM (push f) []))
  record (.evaluated v.text)
  return v

/-- Tokens are evaluated with an account that ends with their value, if there is one. -/
theorem exists_account_evaluateRpn (f : Lookup σ ε) (post : List Token) (s : σ)
    (log : List Event) :
    ∃ pushed, Account f [] s post pushed ∧ evaluateRpn f post (s, log) =
      ((Rpn.evaluate f post s).1, (Rpn.evaluate f post s).2,
        (.parsed (Token.display post) ::
          (pushed.map Pushed.event ++ conclusion (Rpn.evaluate f post s).1)).reverse ++ log) := by
  obtain ⟨pushed, haccount, hfold⟩ :=
    exists_account f post [] s (.parsed (Token.display post) :: log)
  refine ⟨pushed, haccount, ?_⟩
  rw [evaluateRpn, Rpn.evaluate, Evaluation.bind_apply, Evaluation.bind_apply, record]
  simp only [Evaluation.bind_apply, hfold]
  rcases post.foldlM (Rpn.push f) [] s with ⟨failure | stack, s'⟩
  · simp [conclusion]
  · simp only [Evaluation.ofRun]
    cases Rpn.single stack with
    | error e => simp [conclusion, Evaluation.ofResult, Except.mapError]
    | ok v =>
      simp only [conclusion, Evaluation.ofResult, Except.mapError, record, List.reverse_cons,
        List.reverse_append, List.append_assoc]
      rfl

/-- The tokens of a text are entered up to the error that ends them. -/
theorem tokenize_apply (text : String) (s : σ) (log : List Event) :
    tokenize (ε := ε) text (s, log) =
      Evaluation.ofParse (Token.tokenize text)
        (s, ((Token.scan text).tokens.map found).reverse ++ log) := by
  rw [tokenize, Evaluation.bind_apply, forM_record]

/-- What is entered in front of the order of evaluation. -/
def preface (expression : String) : List Event :=
  .evaluating expression (Text.normalize expression) ::
    (Token.scan (Text.normalize expression)).tokens.map found

/-- The evaluation of a text is that of its tokens in their order, behind the preface. -/
theorem evaluate_apply (f : Lookup σ ε) (expression : String) (s : σ) :
    evaluate f expression (s, []) =
      (.ofParse (Rpn.ofText expression) >>= evaluateRpn f :
        Evaluation (Recorded σ) ε Value) (s, (preface expression).reverse) := by
  change (tokenize (Text.normalize expression) >>= _)
    (s, [.evaluating expression (Text.normalize expression)]) = _
  rw [Evaluation.bind_apply, tokenize_apply, preface, List.reverse_cons, Rpn.ofText]
  cases Token.tokenize (Text.normalize expression) <;> rfl

/-- The account is handed out in the order of the events. -/
theorem run_of_evaluate {f : Lookup σ ε} {expression : String} {r : Except (Failure ε) Value}
    {events : List Event} (h : evaluate f expression (s, []) = (r, s', events.reverse)) :
    run f expression s = (r, events, s') := by
  have hrun : (evaluate f expression).run (s, []) = (r, s', events.reverse) := h
  rw [run, hrun]
  simp only [List.reverse_reverse]

/-- The account of a text that cannot be read ends with its tokens. -/
theorem run_of_error {f : Lookup σ ε} {expression : String} {e : ParseError}
    (h : Rpn.ofText expression = .error e) (s : σ) :
    run f expression s = (.error (.fault (.parse e)), preface expression, s) := by
  refine run_of_evaluate ((evaluate_apply f expression s).trans ?_)
  rw [h]
  rfl

/-- The account of a text that can be read goes on with the order of evaluation, what is put on
the stack and the value. -/
theorem exists_account_run {f : Lookup σ ε} {expression : String} {post : List Token}
    (h : Rpn.ofText expression = .ok post) (s : σ) :
    ∃ pushed, Account f [] s post pushed ∧ run f expression s =
      ((Rpn.evaluate f post s).1, preface expression ++ .parsed (Token.display post) ::
        (pushed.map Pushed.event ++ conclusion (Rpn.evaluate f post s).1),
        (Rpn.evaluate f post s).2) := by
  obtain ⟨pushed, haccount, hevaluate⟩ :=
    exists_account_evaluateRpn f post s (preface expression).reverse
  refine ⟨pushed, haccount, run_of_evaluate ((evaluate_apply f expression s).trans ?_)⟩
  rw [h, List.reverse_append]
  exact hevaluate

/-- **The account of an evaluation is true.** It begins with the text and its normal form, and
then come the tokens up to the error in the text, if there is one. Only for a text that can be
read the order of evaluation follows, with an entry for each token of it that is evaluated in
front of the first failure, and the value at the end if there is one. It is then the value of the
last entry and alone on the stack. -/
theorem run_eq (f : Lookup σ ε) (expression : String) (s : σ) :
    ∃ r s' ts error events, Formula.evaluate f expression s = (r, s') ∧
      run f expression s =
        (r, .evaluating expression (Text.normalize expression) ::
          (ts.map (fun t => .token t.text t.position) ++ events), s') ∧
      Token.Cuts 0 none (Text.normalize expression).toList ts error ∧
      Token.tokenize (Text.normalize expression) = error.elim (.ok ts) .error ∧
      (∀ e, Rpn.ofText expression = .error e →
        r = .error (.fault (.parse e)) ∧ events = []) ∧
      ∀ post, Rpn.ofText expression = .ok post → ∃ pushed, Account f [] s post pushed ∧
        events = .parsed (String.intercalate " " (post.map (·.text))) ::
          (pushed.map Pushed.event ++ conclusion r) ∧
        (∀ p ∈ pushed, 1 ≤ p.depth) ∧
        ∀ v, r = .ok v → pushed.map (·.token) = post ∧
          ∃ p ∈ pushed.getLast?, p.depth = 1 ∧ p.value = v := by
  have hcuts := Token.cuts_scanFrom 0 none (Text.normalize expression).toList
  have htokenize : Token.tokenize (Text.normalize expression) =
      (Token.scan (Text.normalize expression)).error.elim
        (.ok (Token.scan (Text.normalize expression)).tokens) .error := by
    rw [Token.tokenize]
    obtain ⟨ts, _ | e⟩ := Token.scan (Text.normalize expression) <;> rfl
  cases hread : Rpn.ofText expression with
  | error e =>
    refine ⟨.error (.fault (.parse e)), s, _, _, [], ?_, ?_, hcuts, htokenize, ?_, ?_⟩
    · rw [Formula.evaluate, hread]
      rfl
    · rw [run_of_error hread, List.append_nil]
      rfl
    · exact fun e' he => ⟨by rw [Except.error.inj he], rfl⟩
    · exact fun post hpost => absurd hpost (by simp)
  | ok post =>
    obtain ⟨pushed, haccount, hrun⟩ := exists_account_run (f := f) hread s
    refine ⟨_, _, _, _, _, ?_, hrun, hcuts, htokenize, ?_, fun post' hpost => ?_⟩
    · rw [Formula.evaluate, hread]
      rfl
    · exact fun e he => absurd he (by simp)
    · obtain rfl := Except.ok.inj hpost
      refine ⟨pushed, haccount, rfl, haccount.one_le_depth, fun v hv => ?_⟩
      have hfold := Rpn.foldlM_push_eq_of_evaluate (Prod.ext hv rfl)
      exact ⟨haccount.complete hfold, haccount.exists_getLast? hfold⟩

/-- In `-2 + 1 / 0` the sign takes its operand before the others are put on the stack, and the
account ends in front of the division: all six tokens are found, and the first four in the order of
evaluation are put on the stack. -/
theorem run_division_by_zero :
    let minus : Token := ⟨"-", .operator ⟨.minus, Catalog.unaryPrecedence, .fixed 1, true⟩, 0⟩
    let plus : Token := ⟨"+", .operator ⟨.plus, Catalog.additivePrecedence, .fixed 2, false⟩, 2⟩
    let slash : Token := ⟨"/", .operator ⟨.divide, 5, .fixed 2, false⟩, 4⟩
    let post : List Token :=
      [⟨"2", .value, 1⟩, minus, ⟨"1", .value, 3⟩, ⟨"0", .value, 5⟩, slash, plus]
    let reading : List Event :=
      [.evaluating "-2 + 1 / 0" "-2+1/0", .token "-" 0, .token "2" 1, .token "+" 2, .token "1" 3,
        .token "/" 4, .token "0" 5, .parsed "2 - 1 0 / +"]
    let pushes : List Event := [.push "2" "2" 1, .push "-" "-2" 1, .push "1" "1" 2, .push "0" "0" 3]
    (run (σ := Unit) Lookup.noVariables "-2 + 1 / 0" ()).2.1 = reading ++ pushes ∧
      ∃ pushed, Account (σ := Unit) Lookup.noVariables [] () post pushed ∧
        pushed.map Pushed.event = pushes := by
  intro minus plus slash post reading pushes
  obtain ⟨r, s', ts, error, events, hevaluate, hrun, -, htokenize, -, haccount⟩ :=
    run_eq (σ := Unit) Lookup.noVariables "-2 + 1 / 0" ()
  have hlog : (run (σ := Unit) Lookup.noVariables "-2 + 1 / 0" ()).2.1 = reading ++ pushes := by
    decide +kernel
  have htokens : Token.tokenize (Text.normalize "-2 + 1 / 0") =
      .ok [minus, ⟨"2", .value, 1⟩, plus, ⟨"1", .value, 3⟩, slash, ⟨"0", .value, 5⟩] := by
    decide +kernel
  have hpost : Rpn.ofText "-2 + 1 / 0" = .ok post := by decide +kernel
  have hfails : (Formula.evaluate (σ := Unit) Lookup.noVariables "-2 + 1 / 0" ()).1 =
      .error (.fault (.runtime (.divisionByZero "/"))) := by decide +kernel
  -- the tokens that are found are those of the text, and the failure adds nothing at the end
  obtain ⟨pushed, hpushed, rfl, -⟩ := haccount post hpost
  obtain rfl : r = .error (.fault (.runtime (.divisionByZero "/"))) :=
    (congrArg Prod.fst hevaluate).symm.trans hfails
  obtain rfl : ts = [minus, ⟨"2", .value, 1⟩, plus, ⟨"1", .value, 3⟩, slash, ⟨"0", .value, 5⟩] := by
    obtain _ | e := error
    · exact (Except.ok.inj (htokens.symm.trans htokenize)).symm
    · cases htokens.symm.trans htokenize
  refine ⟨hlog, pushed, hpushed, ?_⟩
  rw [hrun] at hlog
  have hpushes := (List.cons.inj (List.append_cancel_left (List.cons.inj hlog).2)).2
  exact (List.append_nil _).symm.trans hpushes

end Trace

end Formula
