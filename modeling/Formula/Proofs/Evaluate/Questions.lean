import Formula.Proofs.Evaluate.Words
import Formula.Proofs.Rpn.Stack
import Formula.Proofs.Yard.Arrangement

/-!
# The questions of an evaluation

What an evaluation asks of its lookup. A lookup is watched by a record of its questions and
answers that is kept beside the caller's state (`Lookup.recorded`); the record changes nothing
about the evaluation.

`Question.Asked` says what a record looks like for a computation that has to ask for given names
one after the other. Two such computations one behind the other ask for the names of both
(`Evaluation.Records.bind`), so that evaluating tokens asks for the names among them. These keep
their order in the yard, which gives `evaluate_questions` for whole formulas.
-/

namespace Formula

/-- A name that a lookup is asked for, and its answer. -/
structure Question (ε : Type) where
  name : String
  answer : Except ε Value

variable {σ ε α β : Type}

/-- The lookup with a record of its questions beside the caller's state. -/
def Lookup.recorded (lookup : Lookup σ ε) : Lookup (σ × List (Question ε)) ε :=
  fun name (s, record) =>
    let (answer, s') := lookup name s
    (answer, (s', record ++ [⟨name, answer⟩]))

/-- The names of variables among the tokens, each as often as it is there. -/
def Token.names (ts : List Token) : List String :=
  (ts.filter fun t => t.kind = .symbol).map (·.text)

/-- The questions of a computation that comes to the outcome `r` and has to ask for the given
names to get to its end. -/
structure Question.Asked (names : List String) (r : Except (Failure ε) α)
    (questions : List (Question ε)) : Prop where
  /-- The names are asked for in their order. -/
  inOrder : questions.map (·.name) <+: names
  /-- A computation that gets to its end has asked for all of them. -/
  complete : ∀ a, r = .ok a → questions.map (·.name) = names
  /-- No question follows one that has no answer. -/
  answered : ∀ q ∈ questions.dropLast, ∃ v, q.answer = .ok v
  /-- The error of the lookup is the outcome, as it was given. -/
  failed : ∀ e, r = .error (.lookup e) ↔ ∃ q ∈ questions.getLast?, q.answer = .error e

namespace Question.Asked

variable {names names' : List String} {questions questions' : List (Question ε)}

/-- A computation that asks nothing. -/
theorem nil {r : Except (Failure ε) α} (hnames : ∀ a, r = .ok a → names = [])
    (hr : ∀ e, r ≠ .error (.lookup e)) : Asked names r [] where
  inOrder := List.nil_prefix
  complete := fun a ha => (hnames a ha).symm
  answered := fun q hq => absurd hq List.not_mem_nil
  failed := fun e => ⟨fun h => absurd h (hr e), fun ⟨_, hq, _⟩ => absurd hq (by simp)⟩

/-- Behind a computation that gets to its end every question has an answer. -/
theorem forall_answered {a : α} (h : Asked names (.ok a) questions) :
    ∀ q ∈ questions, ∃ v, q.answer = .ok v := by
  intro q hq
  obtain rfl | ⟨before, last, rfl⟩ := List.eq_nil_or_concat questions
  · exact absurd hq List.not_mem_nil
  · rw [List.concat_eq_append] at h hq
    obtain hq | hq := List.mem_append.mp hq
    · exact h.answered q (by simpa using hq)
    · obtain rfl : q = last := List.mem_singleton.mp hq
      cases hanswer : q.answer with
      | ok v => exact ⟨v, rfl⟩
      | error e => exact nomatch (h.failed e).mpr ⟨q, by simp, hanswer⟩

/-- A computation that fails asks no more, whatever it should have asked then. -/
theorem error {f : Failure ε} (h : Asked (α := α) names (.error f) questions)
    (names' : List String) : Asked (α := β) (names ++ names') (.error f) questions where
  inOrder := h.inOrder.trans (List.prefix_append names names')
  complete := fun _ ha => nomatch ha
  answered := h.answered
  failed := fun e => by
    rw [← h.failed e, Except.error.injEq, Except.error.injEq]

/-- A computation that gets to its end, and another one behind it. -/
theorem append {a : α} {r : Except (Failure ε) β} (h : Asked names (.ok a) questions)
    (h' : Asked names' r questions') : Asked (names ++ names') r (questions ++ questions') := by
  have hnames : questions.map (·.name) = names := h.complete a rfl
  have hall := h.forall_answered
  refine ⟨?_, fun b hb => ?_, ?_, fun e => ?_⟩
  · rw [List.map_append, hnames]
    exact (List.prefix_append_right_inj names).mpr h'.inOrder
  · rw [List.map_append, hnames, h'.complete b hb]
  · obtain rfl | hne := eq_or_ne questions' []
    · rw [List.append_nil]
      exact fun q hq => hall q (List.dropLast_subset questions hq)
    · rw [List.dropLast_append_of_ne_nil hne]
      exact List.forall_mem_append.mpr ⟨hall, h'.answered⟩
  · rw [h'.failed e]
    obtain rfl | hne := eq_or_ne questions' []
    · -- the last question of the first part has an answer
      refine ⟨fun ⟨_, hq, _⟩ => absurd hq (by simp), fun ⟨q, hq, hanswer⟩ => ?_⟩
      rw [List.append_nil] at hq
      obtain ⟨v, hv⟩ := hall q (List.mem_of_getLast? hq)
      exact nomatch hv.symm.trans hanswer
    · rw [List.getLast?_append_of_ne_nil questions hne]

end Question.Asked

/-! ### Computations and their records -/

namespace Evaluation

open Question (Asked)

/-- The second computation does what the first one does, adds its questions to the record, and
has to ask for the given names. -/
def Records (names : List String) (m : Evaluation σ ε α)
    (m' : Evaluation (σ × List (Question ε)) ε α) : Prop :=
  ∀ s record, ∃ r s' questions, m s = (r, s') ∧
    m' (s, record) = (r, (s', record ++ questions)) ∧ Asked names r questions

variable {names names' : List String} {m : Evaluation σ ε α}
  {m' : Evaluation (σ × List (Question ε)) ε α}

private theorem records_pure (a : α) : Records [] (pure a : Evaluation σ ε α) (pure a) := by
  intro s record
  refine ⟨.ok a, s, [], rfl, ?_, .nil (fun _ _ => rfl) fun _ => nofun⟩
  rw [List.append_nil]
  rfl

/-- Reading and computing ask for nothing. -/
theorem records_ofResult (r : Except Error α) :
    Records [] (ofResult r : Evaluation σ ε α) (ofResult r) := by
  intro s record
  obtain e | a := r
  · refine ⟨.error (.fault e), s, [], rfl, ?_, .nil (fun _ _ => rfl) fun _ => nofun⟩
    rw [List.append_nil]
    rfl
  · exact records_pure a s record

/-- A variable is asked for once. -/
theorem records_ask (lookup : Lookup σ ε) (name : String) :
    Records [name] (ask lookup name) (ask lookup.recorded name) := by
  intro s record
  rcases hanswer : lookup name s with ⟨answer, s'⟩
  have hrecorded : lookup.recorded name (s, record) =
      (answer, (s', record ++ [⟨name, answer⟩])) := by
    rw [Lookup.recorded, hanswer]
  refine ⟨answer.mapError .lookup, s', [⟨name, answer⟩], ?_, ?_, ?_⟩
  · rw [ask, hanswer]
    obtain e | v := answer <;> rfl
  · rw [ask, hrecorded]
    obtain e | v := answer <;> rfl
  · refine ⟨List.prefix_refl _, fun _ _ => rfl, fun q hq => absurd hq List.not_mem_nil, fun e => ?_⟩
    obtain e' | v := answer
    · change Except.error (Failure.lookup e') = Except.error (Failure.lookup e) ↔ _
      simp
    · change Except.ok v = Except.error (Failure.lookup e) ↔ _
      simp

/-- One computation behind the other asks for the names of both. -/
theorem Records.bind {k : α → Evaluation σ ε β}
    {k' : α → Evaluation (σ × List (Question ε)) ε β} (hm : Records names m m')
    (hk : ∀ a, Records names' (k a) (k' a)) :
    Records (names ++ names') (m >>= k) (m' >>= k') := by
  intro s record
  obtain ⟨r, s₁, questions, hr, hr', hasked⟩ := hm s record
  rw [bind_apply, bind_apply, hr, hr']
  obtain f | a := r
  · exact ⟨.error f, s₁, questions, rfl, rfl, hasked.error names'⟩
  · obtain ⟨r, s', questions', hk, hk', hasked'⟩ := hk a s₁ (record ++ questions)
    refine ⟨r, s', questions ++ questions', hk, ?_, hasked.append hasked'⟩
    rw [← List.append_assoc]
    exact hk'

/-- What goes on behind a computation without another question. -/
theorem Records.bind_pure (hm : Records names m m') (f : α → β) :
    Records names (m >>= fun a => pure (f a)) (m' >>= fun a => pure (f a)) := by
  have h := hm.bind fun a => records_pure (f a)
  rwa [List.append_nil] at h

end Evaluation

/-! ### Tokens -/

namespace Token

private theorem names_cons (t : Token) (ts : List Token) :
    names (t :: ts) = names [t] ++ names ts := by
  rw [names, names, names, ← List.map_append, ← List.filter_append, List.singleton_append]

/-- The names depend on the operands alone. -/
theorem names_filter_isOperand (ts : List Token) : names (ts.filter isOperand) = names ts := by
  rw [names, names, List.filter_filter]
  refine congrArg _ (List.filter_congr fun t _ => ?_)
  cases hk : t.kind <;> simp [isOperand, hk]

end Token

namespace Rpn

open Evaluation (Records)

variable (lookup : Lookup σ ε)

/-- A token asks for its name, if it is a variable. -/
theorem records_push (t : Token) (stack : List Value) :
    Records (Token.names [t]) (push lookup stack t) (push lookup.recorded stack t) := by
  cases hk : t.kind with
  | symbol =>
    rw [push_symbol lookup hk, push_symbol lookup.recorded hk]
    have hnames : Token.names [t] = [t.text] := by simp [Token.names, hk]
    rw [hnames]
    exact (Evaluation.records_ask lookup t.text).bind_pure _
  | value =>
    have hnames : Token.names [t] = [] := by simp [Token.names, hk]
    simp only [push, hk, hnames]
    exact (Evaluation.records_ofResult _).bind_pure _
  | operator b | function b | parenthesis side | comma =>
    have hnames : Token.names [t] = [] := by simp [Token.names, hk]
    simp only [push, hk, hnames]
    exact Evaluation.records_ofResult _

/-- The questions of a row of tokens are the names in it, in their order. -/
private theorem records_foldlM_push (ts : List Token) (stack : List Value) :
    Records (Token.names ts) (ts.foldlM (push lookup) stack)
      (ts.foldlM (push lookup.recorded) stack) := by
  induction ts generalizing stack with
  | nil => exact Evaluation.records_pure stack
  | cons t ts ih =>
    rw [Token.names_cons, List.foldlM_cons, List.foldlM_cons]
    exact (records_push lookup t stack).bind ih

/-- Tokens in their order of evaluation ask for the names among them. -/
theorem records_evaluate (post : List Token) :
    Records (Token.names post) (evaluate lookup post) (evaluate lookup.recorded post) := by
  have h := (records_foldlM_push lookup post []).bind fun stack =>
    Evaluation.records_ofResult ((single stack).mapError .runtime)
  rwa [List.append_nil] at h

/-- The names come out of the yard in their order. -/
theorem names_of_ofTokens {ts post : List Token} (h : ofTokens ts = .ok post) :
    Token.names post = Token.names ts := by
  obtain ⟨placed, rfl, harrangement⟩ := exists_arrangement h
  rw [← Token.names_filter_isOperand, harrangement.filter_isOperand,
    Token.names_filter_isOperand]

end Rpn

/-! ### Formulas -/

/-- A text that can be cut into tokens is put into order as these are. -/
theorem Rpn.ofText_of_tokenize {expression : String} {ts : List Token}
    (h : Token.tokenize (Text.normalize expression) = .ok ts) :
    ofText expression = ofTokens ts := by
  rw [ofText, h]
  rfl

/-- **What an evaluation asks of its lookup.** If the formula cannot be read, there is no
question. Otherwise the names of its variables are asked for as they stand in it, one question for
each time that a variable occurs; a formula that has a value has asked for all of them, and an
error of the lookup ends the questions and is the outcome. -/
theorem evaluate_questions (lookup : Lookup σ ε) (expression : String) (s : σ) :
    ∃ r s' questions, evaluate lookup expression s = (r, s') ∧
      evaluate lookup.recorded expression (s, []) = (r, (s', questions)) ∧
      (∀ e, Rpn.ofText expression = .error e →
        r = .error (.fault (.parse e)) ∧ questions = []) ∧
      ∀ ts, Token.tokenize (Text.normalize expression) = .ok ts →
        Question.Asked (Token.names ts) r questions := by
  cases hread : Rpn.ofText expression with
  | error e =>
    refine ⟨.error (.fault (.parse e)), s, [], ?_, ?_, fun e' he => ?_, fun ts _ => ?_⟩
    · rw [evaluate, hread]
      rfl
    · rw [evaluate, hread]
      rfl
    · exact ⟨by rw [Except.error.inj he], rfl⟩
    · exact .nil (fun _ hv => absurd hv (by simp)) fun _ hf => absurd hf (by simp)
  | ok post =>
    obtain ⟨r, s', questions, hr, hr', hasked⟩ := Rpn.records_evaluate lookup post s []
    refine ⟨r, s', questions, ?_, ?_, fun e he => absurd he (by simp), fun ts hts => ?_⟩
    · rw [evaluate, hread]
      exact hr
    · rw [evaluate, hread]
      exact hr'
    · rw [Rpn.ofText_of_tokenize hts] at hread
      rw [← Rpn.names_of_ofTokens hread]
      exact hasked

/-- The questions of `b + a * a / 0 - c`, where the lookup counts them and answers with their
number: the division fails in front of the last variable. -/
example :
    let count : Lookup Nat Error := fun _ n => (.ok (.integer (.ofNat n)), n + 1)
    let outcome := evaluate count.recorded "b + a * a / 0 - c" (1, [])
    outcome.1 = .error (.fault (.runtime (.divisionByZero "/"))) ∧ outcome.2.1 = 4 ∧
      outcome.2.2.map (·.name) = ["b", "a", "a"] := by
  decide +kernel

end Formula
