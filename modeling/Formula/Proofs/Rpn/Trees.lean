import Formula.Proofs.Rpn.Stack
import Formula.Proofs.Tree.Assembly

/-!
# Evaluation by a stack is evaluation of trees

A tree is evaluated by recursion: the children of a node from the left to the right, then the
operation on their values (`Tree.value`). Evaluating its tokens in their order of evaluation
comes to the same (`Rpn.foldlM_push_postOrder`): each value that a token puts on the stack waits
there until the operation of which it is an operand takes it.

Conversely a row of tokens that has a value is the order of evaluation of a tree. Evaluation
keeps as many values on the stack as assembling keeps trees (`Rpn.exists_assemble_of_push`), so
that in the end there is exactly one.
-/

namespace Formula

variable {σ ε : Type}

/-! ### The value of a tree -/

/-- The value of a literal or a variable. -/
def Rpn.operand (lookup : Lookup σ ε) (t : Token) : Evaluation σ ε Value :=
  match t.kind with
  | .value => .ofParse (Value.ofLiteral t.text)
  | _ => .ask lookup t.text

/-- The value of an operator or a function on its operands, with the symbol that was written in
its errors. There are no values of other tokens on operands. -/
def Rpn.operate (t : Token) (vs : List Value) : Evaluation σ ε Value :=
  match t.binding? with
  | some b => .ofRun ((b.operation.apply vs).mapError (nameError t))
  | none => .ofRun (.error (.unbalancedExpression vs.length))

namespace Tree

mutual

/-- The value of a tree: the children are evaluated from the left to the right, and the first
error is the outcome. -/
def value (lookup : Lookup σ ε) : Tree → Evaluation σ ε Value
  | leaf t => Rpn.operand lookup t
  | node t cs => do
    let vs ← values lookup cs
    Rpn.operate t vs

/-- The values of several trees. -/
def values (lookup : Lookup σ ε) : List Tree → Evaluation σ ε (List Value)
  | [] => pure []
  | c :: cs => do
    let v ← value lookup c
    let vs ← values lookup cs
    return v :: vs

end

/-- There are as many values as trees. -/
theorem values_bind_congr {α : Type} (lookup : Lookup σ ε) {cs : List Tree}
    {k k' : List Value → Evaluation σ ε α} (h : ∀ vs, vs.length = cs.length → k vs = k' vs) :
    values lookup cs >>= k = values lookup cs >>= k' := by
  induction cs generalizing k k' with
  | nil =>
    rw [values, pure_bind, pure_bind]
    exact h [] rfl
  | cons c cs ih =>
    simp only [values, bind_assoc, pure_bind]
    refine congrArg _ (funext fun v => ih fun vs hvs => h (v :: vs) ?_)
    rw [List.length_cons, List.length_cons, hvs]

end Tree

namespace Rpn

variable {t : Token} {b : Binding}

/-! ### From a tree to its tokens -/

/-- A literal or a variable puts its value on the stack. -/
theorem push_operand (lookup : Lookup σ ε) (ht : t.kind = .value ∨ t.kind = .symbol)
    (stack : List Value) :
    push lookup stack t = operand lookup t >>= fun v => pure (v :: stack) := by
  obtain ht | ht := ht <;> rw [push, operand, ht]

/-- An operator or a function puts its value in the place of its operands. -/
theorem push_operate (lookup : Lookup σ ε) {vs : List Value} (hb : t.binding? = some b)
    (harity : b.arity = .fixed vs.length) (stack : List Value) :
    push lookup (vs.reverse ++ stack) t = operate t vs >>= fun v => pure (v :: stack) := by
  have hlength : ¬(vs.reverse ++ stack).length < vs.length := by simp
  have htake : (vs.reverse ++ stack).take vs.length = vs.reverse :=
    List.take_left' List.length_reverse
  have hdrop : (vs.reverse ++ stack).drop vs.length = stack :=
    List.drop_left' List.length_reverse
  rw [push_binding lookup hb, applyBinding, harity, operate, hb]
  simp only [if_neg hlength, htake, hdrop, List.reverse_reverse]
  obtain error | v := b.operation.apply vs <;> rfl

/-- Trees that are evaluated one after the other leave their values on the stack. -/
theorem foldlM_push_postOrders (lookup : Lookup σ ε) {cs : List Tree}
    (h : ∀ c ∈ cs, ∀ stack, c.postOrder.foldlM (push lookup) stack =
      c.value lookup >>= fun v => pure (v :: stack)) (stack : List Value) :
    (Tree.postOrders cs).foldlM (push lookup) stack =
      Tree.values lookup cs >>= fun vs => pure (vs.reverse ++ stack) := by
  induction cs generalizing stack with
  | nil =>
    rw [Tree.postOrders_nil, Tree.values, pure_bind]
    rfl
  | cons c cs ih =>
    rw [Tree.postOrders_cons, List.foldlM_append, h c List.mem_cons_self, Tree.values]
    simp only [bind_assoc, pure_bind, ih fun d hd => h d (List.mem_cons_of_mem _ hd),
      List.reverse_cons, List.append_assoc, List.singleton_append]

/-- **The tokens of a tree put its value on the stack**, or fail with its first error. -/
theorem foldlM_push_postOrder (lookup : Lookup σ ε) {e : Tree} (h : e.Formed)
    (stack : List Value) :
    e.postOrder.foldlM (push lookup) stack =
      e.value lookup >>= fun v => pure (v :: stack) := by
  induction h generalizing stack with
  | leaf ht =>
    rw [Tree.postOrder_leaf, List.foldlM_cons, push_operand lookup ht, Tree.value]
    exact bind_pure _
  | @node t b cs hb harity _ ih =>
    rw [Tree.postOrder_node, List.foldlM_append, foldlM_push_postOrders lookup ih, Tree.value]
    simp only [bind_assoc, pure_bind, List.foldlM_cons, List.foldlM_nil]
    -- the node finds as many values on top of the stack as it has children
    refine Tree.values_bind_congr lookup fun vs hvs => ?_
    rw [push_operate lookup hb (hvs.symm ▸ harity)]
    simp only [bind_assoc, pure_bind]

private theorem evaluate_postOrder (lookup : Lookup σ ε) {e : Tree} (h : e.Formed) :
    evaluate lookup e.postOrder = e.value lookup := by
  rw [evaluate, foldlM_push_postOrder lookup h]
  simp only [bind_assoc, pure_bind]
  exact bind_pure _

/-! ### From tokens to a tree -/

variable {lookup : Lookup σ ε} {stack stack' : List Value} {s s' : σ}

/-- A token that does not fail finds as many trees as it finds values. -/
theorem exists_assemble_of_push (h : push lookup stack t s = (.ok stack', s'))
    {trees : List Tree} (hlength : trees.length = stack.length) :
    ∃ trees', Tree.assemble trees t = some trees' ∧ trees'.length = stack'.length := by
  have hoperand : t.kind = .value ∨ t.kind = .symbol →
      ∃ trees', Tree.assemble trees t = some trees' ∧ trees'.length = stack'.length := by
    intro ht
    rw [push_operand lookup ht] at h
    obtain ⟨v, s₁, -, hv⟩ := Evaluation.exists_of_bind h
    obtain rfl : v :: stack = stack' := Except.ok.inj (congrArg Prod.fst hv)
    exact ⟨_, Tree.assemble_leaf ht trees, by rw [List.length_cons, List.length_cons, hlength]⟩
  have hbinding : ∀ b, t.binding? = some b →
      ∃ trees', Tree.assemble trees t = some trees' ∧ trees'.length = stack'.length := by
    intro b hb
    rw [push_binding lookup hb] at h
    obtain ⟨needed, v, harity, hneeded, -, rfl⟩ :=
      exists_of_applyBinding (Evaluation.ofRun_eq_ok_iff.mp h).1
    refine ⟨_, Tree.assemble_node hb harity (hlength ▸ hneeded), ?_⟩
    rw [List.length_cons, List.length_cons, List.length_drop, List.length_drop, hlength]
  cases hk : t.kind with
  | value => exact hoperand (.inl hk)
  | symbol => exact hoperand (.inr hk)
  | operator b | function b => exact hbinding b (by rw [Token.binding?, hk])
  | parenthesis side | comma =>
    rw [push, hk] at h
    exact absurd h Evaluation.error_ne_ok

/-- Tokens that do not fail are assembled to as many trees as they leave values. -/
theorem exists_assemble_of_foldlM_push {ts : List Token}
    (h : ts.foldlM (push lookup) stack s = (.ok stack', s')) (trees : List Tree)
    (hlength : trees.length = stack.length) :
    ∃ trees', ts.foldlM Tree.assemble trees = some trees' ∧ trees'.length = stack'.length := by
  induction ts generalizing stack trees s with
  | nil =>
    obtain rfl : stack = stack' := Except.ok.inj (congrArg Prod.fst h)
    exact ⟨trees, rfl, hlength⟩
  | cons t ts ih =>
    rw [List.foldlM_cons] at h
    obtain ⟨vs, s₁, hpush, hrest⟩ := Evaluation.exists_of_bind h
    obtain ⟨trees₁, hstep, hlength₁⟩ := exists_assemble_of_push hpush hlength
    obtain ⟨trees', hrun, hlength'⟩ := ih hrest trees₁ hlength₁
    exact ⟨trees', by rw [List.foldlM_cons, hstep]; exact hrun, hlength'⟩

/-- Tokens that have a value are those of a tree. -/
theorem exists_postOrder_of_evaluate {ts : List Token} {v : Value}
    (h : evaluate lookup ts s = (.ok v, s')) : ∃ e : Tree, e.Formed ∧ e.postOrder = ts := by
  obtain ⟨trees, hrun, hlength⟩ :=
    exists_assemble_of_foldlM_push (foldlM_push_eq_of_evaluate h) [] rfl
  obtain ⟨e, rfl⟩ := List.length_eq_one_iff.mp hlength
  obtain ⟨hformed, hpost⟩ := Tree.postOrders_of_foldlM_assemble hrun
    fun e he => absurd he List.not_mem_nil
  exact ⟨e, hformed e List.mem_cons_self, by simpa using hpost⟩

/-- **Evaluation by a stack is evaluation of trees, both ways.** The order of evaluation of a
tree has the value of the tree, or its first error, and asks the same questions. Tokens that have
a value are the order of evaluation of exactly one tree, and it has this value. -/
theorem evaluate_iff_tree_value :
    (∀ {σ ε : Type} (lookup : Lookup σ ε) (e : Tree), e.Formed →
      evaluate lookup e.postOrder = e.value lookup) ∧
    ∀ {σ ε : Type} (lookup : Lookup σ ε) (ts : List Token) (v : Value) (s s' : σ),
      evaluate lookup ts s = (.ok v, s') →
        ∃ e : Tree, (e.Formed ∧ e.postOrder = ts) ∧ e.value lookup s = (.ok v, s') ∧
          ∀ e' : Tree, e'.Formed ∧ e'.postOrder = ts → e' = e := by
  refine ⟨fun lookup e he => evaluate_postOrder lookup he, ?_⟩
  intro σ ε lookup ts v s s' h
  obtain ⟨e, he, rfl⟩ := exists_postOrder_of_evaluate h
  refine ⟨e, ⟨he, rfl⟩, ?_, fun e' he' => Tree.eq_of_postOrder_eq he'.1 he he'.2⟩
  rw [← evaluate_postOrder lookup he, h]

/-- A call with three operands under a difference, and a lookup that counts the questions. -/
theorem evaluate_call_minus_one :
    let answer : Lookup Nat Error := fun name count =>
      if name = "x" then (.ok (.integer 30), count + 1)
      else (.error (.runtime (.unknownVariable name)), count)
    let call : Tree := .node ⟨"max", .function ⟨.max, 0, .fixed 3, false⟩, 0⟩
      [.leaf ⟨"x", .symbol, 4⟩, .leaf ⟨"20", .value, 6⟩, .leaf ⟨"x", .symbol, 9⟩]
    let e : Tree := .node ⟨"-", .operator ⟨.minus, 6, .fixed 2, false⟩, 11⟩
      [call, .leaf ⟨"1", .value, 12⟩]
    evaluate answer e.postOrder 0 = (.ok (.integer 29), 2) ∧
      ∃ e' : Tree, (e'.Formed ∧ e'.postOrder = e.postOrder) ∧
        e'.value answer 0 = (.ok (.integer 29), 2) ∧
        ∀ e'' : Tree, e''.Formed ∧ e''.postOrder = e.postOrder → e'' = e' := by
  intro answer call e
  have hleaf : ∀ {text : String} {kind : Token.Kind} {position : Nat},
      kind = .value ∨ kind = .symbol → Tree.Formed (.leaf ⟨text, kind, position⟩) := fun h =>
    .leaf h
  have hcall : call.Formed := .node rfl rfl (by simp [hleaf])
  have he : e.Formed := .node rfl rfl (by simp [hleaf, hcall])
  have hvalue : e.value answer 0 = (.ok (.integer 29), 2) := by rfl
  have heval : evaluate answer e.postOrder 0 = (.ok (.integer 29), 2) :=
    (congrFun (evaluate_iff_tree_value.1 answer e he) 0).trans hvalue
  exact ⟨heval, evaluate_iff_tree_value.2 answer _ _ 0 2 heval⟩

end Rpn

end Formula
