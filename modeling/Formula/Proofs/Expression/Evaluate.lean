import Formula.Proofs.Evaluate.Words
import Formula.Proofs.Expression.Words
import Formula.Proofs.Rpn.Failures
import Formula.Proofs.Rpn.Trees

/-!
# The value of a text is that of its expression

Reading and evaluating the text of an expression comes to the value of the expression: the same
value or the same error, with the same questions to the lookup in the same order
(`Expression.evaluate_of_respelled`). The text may have white space anywhere in it, and its
letters in either case.

The tokens of an expression stand for a tree, and evaluating this tree in its order of
evaluation pushes the value of the expression on whatever is on the stack (`Expression.Stands`).
-/

namespace Formula

variable {σ ε : Type}

/-! ### Operators on the stack -/

/-- An operator or a function with its operands on top of the stack. -/
theorem Rpn.push_operands (lookup : Lookup σ ε) {t : Token} {b : Binding} {vs : List Value}
    (hb : t.binding? = some b) (harity : b.arity = .fixed vs.length) {e : Catalog.Entry}
    (he : e ∈ Catalog.entries) (ht : t.text = e.symbol) (stack : List Value) :
    push lookup (vs.reverse ++ stack) t =
      Expression.operate e.symbol b.operation vs >>= fun v => pure (v :: stack) := by
  have hname : nameError t = (·.renamed e.symbol) := funext (nameError_symbol he ht)
  rw [push_operate lookup hb harity stack, operate, hb, hname, Expression.operate_eq_ofRun]

/-! ### The tokens of the parts -/

/-- How many operands an operator has that stands in the given place. -/
def Binding.Form.operands : Form → Nat
  | between => 2
  | before | behind => 1

/-- The place of an operator among its operands says how many it has. -/
private theorem Catalog.arity_of_binding? : ∀ e ∈ entries,
    ∀ form ∈ [Binding.Form.between, .before, .behind], ∀ b ∈ e.role.binding? form,
      b.arity = .fixed form.operands ∧ b.form = form := by
  decide

namespace OperatorSymbol

variable {form : Binding.Form} (op : OperatorSymbol form)

theorem arity_binding : op.binding.arity = .fixed form.operands ∧ op.binding.form = form := by
  have hform : form ∈ [Binding.Form.between, .before, .behind] := by
    obtain _ | _ | _ := form <;> decide
  exact Catalog.arity_of_binding? op.entry op.mem form hform op.binding op.role

/-- Whether a sign has one operand or two is seen from the token before it. -/
theorem kind_token {previous : Option Token}
    (h : previous.any (·.endsOperand) = !decide (form = .before)) (position : Nat) :
    (op.word.token position previous).kind = .operator op.binding := by
  have hrole := op.role
  rw [word, Word.token_ofEntry, Catalog.Entry.token]
  rcases hr : op.entry.role with b | _ | operation | _ | _
  · rw [hr, Catalog.Role.binding?, Option.ite_none_right_eq_some] at hrole
    exact congrArg Token.Kind.operator (Option.some.inj hrole.2)
  · rw [hr] at hrole
    exact absurd hrole (Option.some_ne_none _).symm
  · rw [hr] at hrole
    simp only [Catalog.signBinding, Catalog.signArity, h]
    obtain _ | _ | _ := form
    · exact congrArg Token.Kind.operator (Option.some.inj hrole)
    · exact congrArg Token.Kind.operator (Option.some.inj hrole)
    · exact absurd hrole (Option.some_ne_none _).symm
  all_goals
    rw [hr] at hrole
    exact absurd hrole (Option.some_ne_none _).symm

private theorem text_token (position : Nat) (previous : Option Token) :
    (op.word.token position previous).text = op.entry.symbol := by
  rw [word, Word.token_ofEntry]
  rfl

/-- The catalog makes such tokens. -/
theorem provides_token (position : Nat) (previous : Option Token) :
    Catalog.Provides (op.word.token position previous).kind := by
  refine ⟨op.entry, op.mem, previous, ?_⟩
  rw [word, Word.token_ofEntry]
  rfl

/-- The operator with its operands on top of the stack. -/
theorem push_token {previous : Option Token}
    (h : previous.any (·.endsOperand) = !decide (form = .before)) (position : Nat)
    (lookup : Lookup σ ε) (vs : List Value) (hvs : vs.length = form.operands)
    (stack : List Value) :
    Rpn.push lookup (vs.reverse ++ stack) (op.word.token position previous) =
      Expression.operate op.entry.symbol op.binding.operation vs >>=
        fun v => pure (v :: stack) :=
  Rpn.push_operands lookup (by rw [Token.binding?, op.kind_token h])
    (hvs ▸ op.arity_binding.1) op.mem (op.text_token position previous) stack

end OperatorSymbol

namespace FunctionSymbol

variable (f : FunctionSymbol) (position : Nat) (previous : Option Token)

private theorem kind_token : (f.word.token position previous).kind = .function f.binding := by
  rw [word, Word.token_ofEntry, Catalog.Entry.token, f.role]

private theorem text_token : (f.word.token position previous).text = f.entry.symbol := by
  rw [word, Word.token_ofEntry]
  rfl

private theorem provides_token : Catalog.Provides (f.word.token position previous).kind := by
  refine ⟨f.entry, f.mem, previous, ?_⟩
  rw [word, Word.token_ofEntry]
  rfl

end FunctionSymbol

/-! ### Expressions as trees of tokens -/

namespace Expression

/-- The tokens stand for a tree that has the value of the expression, and their last one ends an
operand. -/
structure Stands (e : Expression) (ts : List Token) (tree : Tree) : Prop where
  written : Tree.Written none tree ts
  ends : ts.getLast?.any (·.endsOperand) = true
  evaluates : ∀ {σ ε : Type} (lookup : Lookup σ ε) (stack : List Value),
    tree.postOrder.foldlM (Rpn.push lookup) stack = e.value lookup >>= fun v => pure (v :: stack)

/-- A leaf stands for itself. -/
theorem stands_leaf {e : Expression} {t : Token} (ht : t.kind = .value ∨ t.kind = .symbol)
    (hvalue : ∀ {σ ε : Type} (lookup : Lookup σ ε) (stack : List Value),
      Rpn.push lookup stack t = e.value lookup >>= fun v => pure (v :: stack)) :
    Stands e [t] (.leaf t) where
  written := .leaf ht
  ends := by obtain ht | ht := ht <;> simp [Token.endsOperand, ht]
  evaluates := by
    intro σ ε lookup stack
    rw [Tree.postOrder_leaf, List.foldlM_cons, hvalue]
    exact bind_pure _

/-- An operator with its operands stands in parentheses. -/
theorem stands_enclosed {e : Expression} {ws : List Word} {position : Nat} {tree : Tree}
    {top : Option Binding} (previous : Option Token)
    (hwritten : Tree.Written top tree (Word.tokens (position + 1)
      (some ⟨"(", .parenthesis .opening, position⟩) ws))
    (hvalue : ∀ {σ ε : Type} (lookup : Lookup σ ε) (stack : List Value),
      tree.postOrder.foldlM (Rpn.push lookup) stack =
        e.value lookup >>= fun v => pure (v :: stack)) :
    Stands e (Word.tokens position previous (Word.enclosed ws)) tree := by
  obtain ⟨position', htokens⟩ := Word.exists_tokens_enclosed ws position previous
  rw [htokens]
  refine ⟨.group rfl rfl hwritten, ?_, hvalue⟩
  rw [← List.cons_append, List.getLast?_concat]
  rfl

/-- Behind an operand a word sees a token that ends an operand. -/
theorem exists_tokens_behind {ls : List Word} {position : Nat} {previous : Option Token}
    (hends : (Word.tokens position previous ls).getLast?.any (·.endsOperand) = true) (op : Word)
    (rs : List Word) :
    ∃ (position' position'' : Nat) (last : Option Token), last.any (·.endsOperand) = true ∧
      Word.tokens position previous (ls ++ op :: rs) = Word.tokens position previous ls ++
        op.token position' last :: Word.tokens position'' (some (op.token position' last)) rs := by
  refine ⟨_, _, (Word.tokens position previous ls).getLast?.or previous, ?_,
    Word.tokens_append ls (op :: rs) position previous⟩
  obtain ⟨t, ht, -⟩ := (Option.any_eq_true _ _).mp hends
  rw [ht] at hends ⊢
  exact hends

/-- The text of the expression stands for it wherever it is. -/
def Readable (e : Expression) : Prop :=
  ∀ (position : Nat) (previous : Option Token),
    ∃ tree, Stands e (Word.tokens position previous e.words) tree

/-- An operator with its two operands stands for a node with their trees. -/
private theorem readable_between (op : OperatorSymbol .between) {l r : Expression} (hl : Readable l)
    (hr : Readable r) : Readable (.between op l r) := by
  intro position previous
  obtain ⟨x, hx⟩ := hl (position + 1) (some ⟨"(", .parenthesis .opening, position⟩)
  -- the operator stands behind a token that ends an operand, so that a sign is binary
  obtain ⟨p, q, last, hlast, htokens⟩ := exists_tokens_behind hx.ends op.word r.words
  obtain ⟨y, hy⟩ := hr q (some (op.word.token p last))
  have hkind := op.kind_token hlast p
  have hwritten : Tree.Written (some op.binding) (.node (op.word.token p last) [x, y])
      (Word.tokens (position + 1) (some ⟨"(", .parenthesis .opening, position⟩)
        (l.words ++ op.word :: r.words)) := by
    rw [htokens]
    exact .between hkind (op.provides_token p last) op.arity_binding.2 hx.written hy.written
      Binding.forall_mem_none Binding.forall_mem_none
  refine ⟨_, stands_enclosed previous hwritten fun lookup stack => ?_⟩
  have hpush : ∀ v w, Rpn.push lookup (w :: v :: stack) (op.word.token p last) = _ :=
    fun v w => op.push_token hlast p lookup [v, w] rfl stack
  rw [Tree.postOrder_node, Tree.postOrders_cons, Tree.postOrders_cons, Tree.postOrders_nil,
    List.append_nil, List.append_assoc, List.foldlM_append, hx.evaluates, value]
  simp only [bind_assoc, pure_bind, List.foldlM_append, hy.evaluates, List.foldlM_cons,
    List.foldlM_nil, hpush]

/-- An operator behind the tokens of its only operand. -/
theorem foldlM_push_unary {lookup : Lookup σ ε} {e : Expression} {x : Tree} {t : Token}
    {k : Value → Evaluation σ ε Value} {stack : List Value}
    (hx : x.postOrder.foldlM (Rpn.push lookup) stack =
      e.value lookup >>= fun v => pure (v :: stack))
    (ht : ∀ v, Rpn.push lookup (v :: stack) t = k v >>= fun v => pure (v :: stack)) :
    (Tree.node t [x]).postOrder.foldlM (Rpn.push lookup) stack =
      (e.value lookup >>= k) >>= fun v => pure (v :: stack) := by
  rw [Tree.postOrder_node, Tree.postOrders_cons, Tree.postOrders_nil, List.append_nil,
    List.foldlM_append, hx]
  simp only [bind_assoc, pure_bind, List.foldlM_cons, List.foldlM_nil, ht]

private theorem readable_before (op : OperatorSymbol .before) {e : Expression} (he : Readable e) :
    Readable (.before op e) := by
  intro position previous
  -- the operator stands behind an opening parenthesis, so that a sign is unary
  have hprevious : (some (⟨"(", .parenthesis .opening, position⟩ : Token)).any (·.endsOperand) =
    false := rfl
  have hkind := op.kind_token hprevious (position + 1)
  obtain ⟨x, hx⟩ := he (position + 1 + Token.byteLength op.word.chars)
    (some (op.word.token (position + 1) (some ⟨"(", .parenthesis .opening, position⟩)))
  have hwritten := Tree.Written.before hkind (op.provides_token _ _) op.arity_binding.2 hx.written
    Binding.forall_mem_none
  refine ⟨_, stands_enclosed previous hwritten fun lookup stack => ?_⟩
  rw [value]
  exact foldlM_push_unary (hx.evaluates lookup stack)
    fun v => op.push_token hprevious (position + 1) lookup [v] rfl stack

private theorem readable_behind (op : OperatorSymbol .behind) {e : Expression} (he : Readable e) :
    Readable (.behind op e) := by
  intro position previous
  obtain ⟨x, hx⟩ := he (position + 1) (some ⟨"(", .parenthesis .opening, position⟩)
  obtain ⟨p, q, last, hlast, htokens⟩ := exists_tokens_behind hx.ends op.word []
  have hkind := op.kind_token hlast p
  have hwritten : Tree.Written (some op.binding) (.node (op.word.token p last) [x])
      (Word.tokens (position + 1) (some ⟨"(", .parenthesis .opening, position⟩)
        (e.words ++ [op.word])) := by
    rw [htokens]
    exact .behind hkind (op.provides_token p last) op.arity_binding.2 hx.written
      Binding.forall_mem_none
  refine ⟨_, stands_enclosed previous hwritten fun lookup stack => ?_⟩
  rw [value]
  exact foldlM_push_unary (hx.evaluates lookup stack)
    fun v => op.push_token hlast p lookup [v] rfl stack

/-! ### Calls -/

/-- Several expressions have as many values. -/
theorem values_bind_congr {α : Type} (lookup : Lookup σ ε) {es : List Expression}
    {k k' : List Value → Evaluation σ ε α} (h : ∀ vs, vs.length = es.length → k vs = k' vs) :
    values lookup es >>= k = values lookup es >>= k' := by
  induction es generalizing k k' with
  | nil =>
    rw [values, pure_bind, pure_bind]
    exact h [] rfl
  | cons e es ih =>
    simp only [values, bind_assoc, pure_bind]
    refine congrArg _ (funext fun v => ih fun vs hvs => h (v :: vs) ?_)
    rw [List.length_cons, List.length_cons, hvs]

/-- Trees for the arguments of a call. -/
theorem exists_arguments {es : List Expression} (h : ∀ e ∈ es, Readable e) (position : Nat)
    (previous : Option Token) :
    ∃ arguments : List Tree.Writing, arguments.length = es.length ∧
      (∀ a ∈ arguments, Tree.Written a.top a.tree a.tokens) ∧
      Tree.Separated (arguments.map (·.tokens))
        (Word.tokens position previous (argumentWords es)) ∧
      ∀ {σ ε : Type} (lookup : Lookup σ ε) (stack : List Value),
        (Tree.postOrders (arguments.map (·.tree))).foldlM (Rpn.push lookup) stack =
          values lookup es >>= fun vs => pure (vs.reverse ++ stack) := by
  induction es generalizing position previous with
  | nil =>
    refine ⟨[], rfl, fun a ha => absurd ha List.not_mem_nil, .none, fun lookup stack => ?_⟩
    rw [values, pure_bind]
    rfl
  | cons e es ih =>
    obtain ⟨x, hx⟩ := h e List.mem_cons_self position previous
    -- the value of the first argument goes below those of the others
    have hvalues : ∀ {σ ε : Type} (lookup : Lookup σ ε) (stack : List Value)
        (post : List Token), (∀ stack, post.foldlM (Rpn.push lookup) stack =
          values lookup es >>= fun vs => pure (vs.reverse ++ stack)) →
        (x.postOrder ++ post).foldlM (Rpn.push lookup) stack =
          values lookup (e :: es) >>= fun vs => pure (vs.reverse ++ stack) := by
      intro σ ε lookup stack post hpost
      rw [List.foldlM_append, hx.evaluates, values]
      simp only [bind_assoc, pure_bind, hpost, List.reverse_cons, List.append_assoc,
        List.singleton_append]
    obtain _ | ⟨e', es⟩ := es
    · refine ⟨[⟨none, x, Word.tokens position previous e.words⟩], rfl,
        List.forall_mem_singleton.mpr hx.written, .one _, fun lookup stack => ?_⟩
      refine hvalues lookup stack [] fun stack => ?_
      rw [values, pure_bind]
      rfl
    · let comma := Word.comma.token
        (position + Token.byteLength (Word.text e.words))
        ((Word.tokens position previous e.words).getLast?.or previous)
      obtain ⟨arguments, hlength, hwritten, hseparated, hpost⟩ :=
        ih (fun d hd => h d (List.mem_cons_of_mem _ hd))
          (position + Token.byteLength (Word.text e.words) + Token.byteLength Word.comma.chars)
          (some comma)
      obtain ⟨a, arguments, rfl⟩ := List.exists_cons_of_length_eq_add_one hlength
      refine ⟨⟨none, x, Word.tokens position previous e.words⟩ :: a :: arguments,
        congrArg (· + 1) hlength, List.forall_mem_cons.mpr ⟨hx.written, hwritten⟩, ?_,
        fun lookup stack => ?_⟩
      · have hcomma : comma.kind = .comma := by
          rw [show comma = _ from Word.token_ofEntry _ _ _]
          rfl
        rw [argumentWords, Word.tokens_append, Word.tokens]
        exact .cons hcomma hseparated
      · rw [List.map_cons, Tree.postOrders_cons]
        exact hvalues lookup stack _ (hpost lookup)

/-- A function with its arguments stands for a node with as many trees. -/
private theorem readable_call (f : FunctionSymbol) {es : List Expression}
    (h : ∀ e ∈ es, Readable e) :
    Readable (.call f es) := by
  intro position previous
  let t := f.word.token position previous
  -- the tokens of the call, and trees for those of its arguments
  obtain ⟨p, htokens⟩ := Word.exists_tokens_enclosed (argumentWords es)
    (position + Token.byteLength f.word.chars) (some t)
  obtain ⟨arguments, hlength, hwritten, hseparated, hpost⟩ := exists_arguments h
    (position + Token.byteLength f.word.chars + 1)
    (some ⟨"(", .parenthesis .opening, position + Token.byteLength f.word.chars⟩)
  have hrow : Word.tokens position previous (words (.call f es)) =
      t :: Word.tokens (position + Token.byteLength f.word.chars) (some t)
        (Word.enclosed (argumentWords es)) := by
    rw [words, Word.tokens]
  have hkind : t.kind = .function f.binding := f.kind_token position previous
  rw [hrow, htokens]
  refine ⟨.node (t.withArity arguments.length) (arguments.map (·.tree)), ?_, ?_,
    fun lookup stack => ?_⟩
  · exact .call (Token.isFunction_iff.mpr ⟨_, hkind⟩) (f.provides_token position previous) rfl rfl
      hwritten hseparated
  · rw [← List.cons_append, ← List.cons_append, List.getLast?_concat]
    rfl
  · -- the function finds as many values on the stack as there are arguments
    have hbinding : (t.withArity arguments.length).binding? =
        some { f.binding with arity := .fixed arguments.length } := by
      rw [Token.withArity, hkind, Token.binding?]
    have htext : (t.withArity arguments.length).text = f.entry.symbol := by
      rw [Token.withArity, hkind]
      exact f.text_token position previous
    rw [Tree.postOrder_node, List.foldlM_append, hpost, value]
    simp only [bind_assoc, pure_bind, List.foldlM_cons, List.foldlM_nil]
    refine values_bind_congr lookup fun vs hvs => ?_
    rw [Rpn.push_operands lookup hbinding (by rw [hvs, hlength]) f.mem htext stack]
    simp only [bind_assoc, pure_bind]

/-! ### The value of a text -/

private theorem readable_name (x : VariableName) : Readable (.name x) := by
  intro position previous
  refine ⟨_, stands_leaf (.inr rfl) fun lookup stack => ?_⟩
  rw [Rpn.push_symbol lookup rfl, Word.text_token, value]
  exact congrArg (Evaluation.ask lookup · >>= _) String.ofList_toList

private theorem readable_number (n : NumberLiteral) : Readable (.number n) := by
  intro position previous
  refine ⟨_, stands_leaf (.inl rfl) fun lookup stack => ?_⟩
  have htext : (n.word.token position previous).text = n.text :=
    (n.word.text_token position previous).trans String.ofList_toList
  rw [Rpn.push_value lookup rfl (htext ▸ n.denotes), value, pure_bind]

private theorem readable_boolean (b : Bool) : Readable (.boolean b) := by
  intro position previous
  refine ⟨_, stands_leaf (.inl rfl) fun lookup stack => ?_⟩
  have hliteral : Value.ofLiteral ((Word.boolean b).token position previous).text =
      .ok (.boolean b) := by
    rw [Word.text_token]
    obtain _ | _ := b <;> rfl
  rw [Rpn.push_value lookup rfl hliteral, value, pure_bind]

/-- Every expression is read as a tree that has its value. -/
theorem readable (e : Expression) : Readable e := by
  induction e with
  | number n => exact readable_number n
  | boolean b => exact readable_boolean b
  | name x => exact readable_name x
  | between op l r hl hr => exact readable_between op hl hr
  | before op e he => exact readable_before op he
  | behind op e he => exact readable_behind op he
  | call f es hes => exact readable_call f hes

/-- **The value of a text is that of the expression it writes**: every text that differs from
the text of an expression only in white space and in the case of letters comes to the value of
the expression or to its first error, and asks the same questions in the same order. -/
theorem evaluate_of_respelled (e : Expression) {s : String}
    (hs : Text.Respelled e.render.toList s.toList) (lookup : Lookup σ ε) :
    evaluate lookup s = e.value lookup := by
  -- the words of the expression are found in the text, and their tokens stand for a tree
  have hphrase := e.phrase_words
  rw [← text_words] at hs
  obtain ⟨tree, hstands⟩ := e.readable 0 none
  rw [evaluate_of_tokenize (Word.tokenize_normalize hphrase.cut hphrase.small hs), Rpn.value,
    Rpn.ofTokens_of_reads hstands.written.reads]
  have hfold := hstands.evaluates lookup []
  change Rpn.evaluate lookup tree.postOrder = e.value lookup
  rw [Rpn.evaluate, hfold]
  simp only [bind_assoc, pure_bind]
  exact bind_pure _

/-- A difference with a call in it, in capital letters and with white space; the four errors of
operations, with the symbols that are written, which are not the names of the operations; and a
product that fails with the error of the lookup. The lookup counts the questions, and what stands
behind the first error is not asked for. -/
theorem evaluate_max_and_errors :
    let answer : Lookup Nat Error := fun name count =>
      if name = "x" then (.ok (.integer 30), count + 1)
      else (.error (.runtime (.unknownVariable name)), count)
    evaluate answer "(MAX( X, 20 ) - 1)" 0 = (.ok (.integer 29), 1) ∧
      evaluate answer "((x % 0) * X)" 0 =
        (.error (.fault (.runtime (.divisionByZero "%"))), 1) ∧
      evaluate answer "((X % x) ** 0)" 0 =
        (.error (.fault (.runtime (.domain "**" .powerOfZero))), 2) ∧
      evaluate answer "Ceil(x, TRUE)" 0 =
        (.error (.fault (.runtime (.type "ceil" .booleanAsNumber))), 1) ∧
      evaluate answer "ceil( )" 0 =
        (.error (.fault (.runtime (.argumentCount "ceil" 0 (.range ⟨1, some 2⟩)))), 0) ∧
      evaluate answer "(x * y)" 0 =
        (.error (.lookup (.runtime (.unknownVariable "y"))), 1) := by
  intro answer
  let twenty : Expression := .number ⟨"20", .integer 20, by decide +kernel, rfl⟩
  let one : Expression := .number ⟨"1", .integer 1, by decide +kernel, rfl⟩
  let zero : Expression := .number ⟨"0", .integer 0, by decide +kernel, rfl⟩
  let x : Expression := .name ⟨"x", by decide +kernel, by decide, by decide, by decide⟩
  let y : Expression := .name ⟨"y", by decide +kernel, by decide, by decide, by decide⟩
  let minus : OperatorSymbol .between := ⟨⟨"-", .sign .minus⟩, by decide, _, rfl⟩
  let times : OperatorSymbol .between := ⟨⟨"*", Catalog.between .multiply 5⟩, by decide, _, rfl⟩
  let percent : OperatorSymbol .between := ⟨⟨"%", Catalog.between .modulo 5⟩, by decide, _, rfl⟩
  let power : OperatorSymbol .between :=
    ⟨⟨"**", .operator ⟨.power, 5, .fixed 2, true⟩⟩, by decide, _, rfl⟩
  let max : FunctionSymbol := ⟨⟨"max", Catalog.named .max .variadic⟩, by decide, _, rfl⟩
  let ceil : FunctionSymbol := ⟨⟨"ceil", Catalog.named .ceiling .variadic⟩, by decide, _, rfl⟩
  have outcome (e : Expression) {s : String} {r : Except (Failure Error) Value × Nat}
      (hs : Text.Respelled e.render.toList s.toList) (hr : e.value answer 0 = r) :
      evaluate answer s 0 = r :=
    (congrFun (evaluate_of_respelled e hs answer) 0).trans hr
  refine ⟨outcome (.between minus (.call max [x, twenty]) one) ?_ rfl,
    outcome (.between times (.between percent x zero) x) ?_ rfl,
    outcome (.between power (.between percent x x) zero) ?_ rfl,
    outcome (.call ceil [x, .boolean true]) ?_ rfl, outcome (.call ceil []) ?_ rfl,
    outcome (.between times x y) ?_ rfl⟩
  all_goals exact Text.respelled_of_filter (by decide +kernel)

end Expression

end Formula
