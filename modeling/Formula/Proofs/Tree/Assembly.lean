import Formula.Proofs.Tree.Basic

/-!
# Reading trees back from the order of evaluation

The order of evaluation of a formula says all that its tree does: no two trees have the same
one (`Tree.eq_of_postOrder_eq`). There are no parentheses in it, but each operator and each
function has a number of operands, and these are the last trees that were completed in front
of it.

`Tree.assemble` builds trees on a stack by this, token by token. It undoes `Tree.postOrder`
(`Tree.foldlM_assemble_postOrder`), and whatever it builds has the tokens for its order of
evaluation (`Tree.postOrders_of_foldlM_assemble`).
-/

namespace Formula.Tree

/-- The tree is that of a formula: the leaves are literals and variables, and the nodes are
operators and functions with as many children as they have operands. -/
inductive Formed : Tree → Prop where
  | leaf {t : Token} (ht : t.kind = .value ∨ t.kind = .symbol) : Formed (.leaf t)
  | node {t : Token} {b : Binding} {cs : List Tree} (hb : t.binding? = some b)
      (harity : b.arity = .fixed cs.length) (hcs : ∀ c ∈ cs, Formed c) : Formed (.node t cs)

/-- The stack of trees behind a token, which begins with the last tree; nothing if the token
finds too few trees on it, has no fixed number of operands or is no part of a tree. -/
def assemble (stack : List Tree) (t : Token) : Option (List Tree) :=
  match t.kind with
  | .value | .symbol => some (.leaf t :: stack)
  | .operator b | .function b =>
    match b.arity with
    | .fixed n =>
      if stack.length < n then none
      else some (.node t (stack.take n).reverse :: stack.drop n)
    | .variadic => none
  | .parenthesis _ | .comma => none

variable {t : Token} {b : Binding} {stack stack' : List Tree} {n : Nat}

/-! ### One token -/

theorem assemble_leaf (ht : t.kind = .value ∨ t.kind = .symbol) (stack : List Tree) :
    assemble stack t = some (.leaf t :: stack) := by
  obtain ht | ht := ht <;> rw [assemble, ht]

/-- An operator or a function takes its operands from the stack. -/
theorem assemble_node (hb : t.binding? = some b) (harity : b.arity = .fixed n)
    (hn : n ≤ stack.length) :
    assemble stack t = some (.node t (stack.take n).reverse :: stack.drop n) := by
  have hlength : ¬stack.length < n := Nat.not_lt.mpr hn
  cases hk : t.kind with
  | operator b' | function b' =>
    obtain rfl : b' = b := by simpa [Token.binding?, hk] using hb
    simp only [assemble, hk, harity, if_neg hlength]
  | value | symbol | parenthesis side | comma => simp [Token.binding?, hk] at hb

/-- What a token may do that is part of a tree. -/
theorem assemble_cases (h : assemble stack t = some stack') :
    ((t.kind = .value ∨ t.kind = .symbol) ∧ stack' = .leaf t :: stack) ∨
      ∃ b n, t.binding? = some b ∧ b.arity = .fixed n ∧ n ≤ stack.length ∧
        stack' = .node t (stack.take n).reverse :: stack.drop n := by
  cases hk : t.kind with
  | value =>
    rw [assemble_leaf (.inl hk)] at h
    exact .inl ⟨.inl rfl, (Option.some.inj h).symm⟩
  | symbol =>
    rw [assemble_leaf (.inr hk)] at h
    exact .inl ⟨.inr rfl, (Option.some.inj h).symm⟩
  | operator b | function b =>
    cases harity : b.arity with
    | variadic => simp [assemble, hk, harity] at h
    | fixed n =>
      simp only [assemble, hk, harity, Option.ite_none_left_eq_some, Nat.not_lt] at h
      exact .inr ⟨b, n, by rw [Token.binding?, hk], harity, h.1, (Option.some.inj h.2).symm⟩
  | parenthesis side | comma => simp [assemble, hk] at h

/-! ### Assembling undoes the order of evaluation -/

/-- Trees that are assembled one after the other stand on the stack in this order. -/
theorem foldlM_assemble_postOrders {cs : List Tree}
    (h : ∀ c ∈ cs, ∀ stack, c.postOrder.foldlM assemble stack = some (c :: stack))
    (stack : List Tree) :
    (postOrders cs).foldlM assemble stack = some (cs.reverse ++ stack) := by
  induction cs generalizing stack with
  | nil => rw [postOrders_nil]; rfl
  | cons c cs ih =>
    rw [postOrders_cons, List.foldlM_append, h c List.mem_cons_self, Option.bind_eq_bind,
      Option.bind_some, ih fun d hd => h d (List.mem_cons_of_mem _ hd)]
    simp

/-- **A tree is assembled from its order of evaluation**, on whatever is on the stack. -/
theorem foldlM_assemble_postOrder {e : Tree} (h : e.Formed) (stack : List Tree) :
    e.postOrder.foldlM assemble stack = some (e :: stack) := by
  induction h generalizing stack with
  | leaf ht => rw [postOrder_leaf, List.foldlM_cons, assemble_leaf ht]; rfl
  | @node t b cs hb harity _ ih =>
    have hn : cs.length ≤ (cs.reverse ++ stack).length := by simp
    have hstep := assemble_node hb harity hn
    rw [List.take_left' List.length_reverse, List.drop_left' List.length_reverse,
      List.reverse_reverse] at hstep
    rw [postOrder_node, List.foldlM_append, foldlM_assemble_postOrders ih, Option.bind_eq_bind,
      Option.bind_some, List.foldlM_cons, hstep]
    rfl

/-- **No two trees have the same order of evaluation.** -/
theorem eq_of_postOrder_eq {e e' : Tree} (h : e.Formed) (h' : e'.Formed)
    (heq : e.postOrder = e'.postOrder) : e = e' := by
  have hrun := foldlM_assemble_postOrder h []
  rw [heq, foldlM_assemble_postOrder h'] at hrun
  exact (List.cons.inj (Option.some.inj hrun)).1.symm

/-! ### What is assembled has the tokens for its order of evaluation -/

/-- A token goes behind those of the trees on the stack. -/
theorem postOrders_of_assemble (h : assemble stack t = some stack')
    (hstack : ∀ e ∈ stack, e.Formed) :
    (∀ e ∈ stack', e.Formed) ∧
      postOrders stack'.reverse = postOrders stack.reverse ++ [t] := by
  obtain ⟨ht, rfl⟩ | ⟨b, n, hb, harity, hn, rfl⟩ := assemble_cases h
  · refine ⟨List.forall_mem_cons.mpr ⟨.leaf ht, hstack⟩, ?_⟩
    simp [postOrders_append]
  · have hlength : (stack.take n).reverse.length = n := by simp [hn]
    have hnode : (node t (stack.take n).reverse).Formed :=
      .node hb (hlength.symm ▸ harity) fun c hc =>
        hstack c (List.mem_of_mem_take (List.mem_reverse.mp hc))
    refine ⟨List.forall_mem_cons.mpr ⟨hnode, fun e he => hstack e (List.mem_of_mem_drop he)⟩, ?_⟩
    calc postOrders (node t (stack.take n).reverse :: stack.drop n).reverse
        = postOrders ((stack.drop n).reverse ++ (stack.take n).reverse) ++ [t] := by
          simp [postOrders_append]
      _ = postOrders stack.reverse ++ [t] := by
          rw [← List.reverse_append, List.take_append_drop]

/-- The trees that are assembled have all tokens in their order of evaluation. -/
theorem postOrders_of_foldlM_assemble {ts : List Token}
    (h : ts.foldlM assemble stack = some stack') (hstack : ∀ e ∈ stack, e.Formed) :
    (∀ e ∈ stack', e.Formed) ∧
      postOrders stack'.reverse = postOrders stack.reverse ++ ts := by
  induction ts generalizing stack with
  | nil =>
    obtain rfl : stack = stack' := Option.some.inj h
    exact ⟨hstack, (List.append_nil _).symm⟩
  | cons t ts ih =>
    rw [List.foldlM_cons, Option.bind_eq_bind, Option.bind_eq_some_iff] at h
    obtain ⟨stack₁, hstep, hrest⟩ := h
    obtain ⟨hformed, hpost⟩ := postOrders_of_assemble hstep hstack
    obtain ⟨hformed', hpost'⟩ := ih hrest hformed
    exact ⟨hformed', by rw [hpost', hpost, List.append_assoc, List.singleton_append]⟩

end Formula.Tree
