import Formula.Token.Basic

/-!
# Trees of tokens

What a formula says apart from how it is written: literals and variables are leaves, and an
operator or a function is a node with its operands as children, from the left to the right.
Parentheses and commas are not in the tree.

`Tree.postOrder` is the order of evaluation.
-/

namespace Formula

/-- A formula as operators and functions with their operands. -/
inductive Tree where
  | leaf (t : Token)
  | node (t : Token) (children : List Tree)

namespace Tree

mutual

/-- The tokens of a tree, each behind those of its operands. -/
def postOrder : Tree → List Token
  | leaf t => [t]
  | node t cs => postOrders cs ++ [t]

/-- The tokens of several trees one after the other. -/
def postOrders : List Tree → List Token
  | [] => []
  | c :: cs => postOrder c ++ postOrders cs

end

@[simp]
theorem postOrder_leaf (t : Token) : (leaf t).postOrder = [t] := by rw [postOrder]

@[simp]
theorem postOrder_node (t : Token) (cs : List Tree) :
    (node t cs).postOrder = postOrders cs ++ [t] := by rw [postOrder]

@[simp]
theorem postOrders_nil : postOrders [] = [] := by rw [postOrders]

@[simp]
theorem postOrders_cons (c : Tree) (cs : List Tree) :
    postOrders (c :: cs) = c.postOrder ++ postOrders cs := by rw [postOrders]

/-- The tokens of two rows of trees, those of the first row in front. -/
theorem postOrders_append (cs ds : List Tree) :
    postOrders (cs ++ ds) = postOrders cs ++ postOrders ds := by
  induction cs with
  | nil => rw [postOrders_nil, List.nil_append, List.nil_append]
  | cons c cs ih => rw [List.cons_append, postOrders_cons, postOrders_cons, ih, List.append_assoc]

end Tree

end Formula
