import Formula.Catalog
import Formula.Proofs.Tree.Basic

/-!
# Writing a tree as tokens

`Tree.Written` relates a tree to the rows of tokens that stand for it. An operator stands
between its operands, in front of its operand or behind it, as its binding has it
(`Binding.form`), a function stands in front of its arguments in parentheses, and parentheses
may be set around any part. They have to be set around an operand where its own operator would
otherwise be taken for one of another operand: `Binding.enclosesLeft` and
`Binding.enclosesRight` say where, by the forms and the precedences of the two operators.
-/

namespace Formula

/-- Where an operator stands among its operands. -/
inductive Binding.Form where
  | between
  | before
  | behind
  deriving DecidableEq

namespace Binding

/-- An operator of two operands stands between them; one of a single operand stands in front of
it if it is grouped from the right. -/
def form (b : Binding) : Form :=
  if b.arity = .fixed 2 then .between else if b.rightAssociative then .before else .behind

theorem forall_mem_none {p : Binding → Prop} : ∀ c ∈ (none : Option Binding), p c :=
  fun c hc => absurd hc (Option.not_mem_none c)

/-- Does the operator `b` need parentheses around the operand in front of it, if this is itself
written with the operator `c`? -/
def enclosesLeft (b c : Binding) : Bool :=
  match b.form, c.form with
  | .between, .between =>
    decide (b.precedence < c.precedence)
      || (c.precedence == b.precedence && b.rightAssociative)
  | .between, _ => false
  | _, .between => true
  | _, _ => false

/-- Does the operator `b` need parentheses around the operand behind it, if this is itself
written with the operator `c`? -/
def enclosesRight (b c : Binding) : Bool :=
  match b.form, c.form with
  | .between, .between =>
    decide (b.precedence < c.precedence)
      || (c.precedence == b.precedence && !c.rightAssociative)
  | .between, _ => false
  | _, .before => false
  | _, _ => true

end Binding

/-- Does the catalog make tokens of this kind? -/
def Catalog.Provides (k : Token.Kind) : Prop :=
  ∃ e ∈ Catalog.entries, ∃ previous, (e.token e.symbol 0 previous).kind = k

namespace Tree

/-- The tokens are those of the parts with a comma between any two. -/
inductive Separated : List (List Token) → List Token → Prop where
  | none : Separated [] []
  | one (ts : List Token) : Separated [ts] ts
  | cons {ts us vs : List Token} {parts : List (List Token)} {comma : Token}
      (hcomma : comma.kind = .comma) (h : Separated (us :: parts) vs) :
      Separated (ts :: us :: parts) (ts ++ comma :: vs)

/-- A tree, tokens for it, and the operator that these are written with at the top unless they
are in parentheses. -/
structure Writing where
  top : Option Binding
  tree : Tree
  tokens : List Token

/-- The tokens stand for the tree, with parentheses where they are needed and wherever else
they are set; `top` is the operator at the top of the tree if it is not in parentheses. -/
inductive Written : Option Binding → Tree → List Token → Prop where
  | leaf {t : Token} (ht : t.kind = .value ∨ t.kind = .symbol) : Written none (.leaf t) [t]
  | between {x y : Option Binding} {l r : Tree} {ls rs : List Token} {op : Token} {b : Binding}
      (hop : op.kind = .operator b) (hb : Catalog.Provides op.kind) (hform : b.form = .between)
      (hl : Written x l ls) (hr : Written y r rs)
      (hx : ∀ c ∈ x, b.enclosesLeft c = false) (hy : ∀ c ∈ y, b.enclosesRight c = false) :
      Written (some b) (.node op [l, r]) (ls ++ op :: rs)
  | before {y : Option Binding} {r : Tree} {rs : List Token} {op : Token} {b : Binding}
      (hop : op.kind = .operator b) (hb : Catalog.Provides op.kind) (hform : b.form = .before)
      (hr : Written y r rs) (hy : ∀ c ∈ y, b.enclosesRight c = false) :
      Written (some b) (.node op [r]) (op :: rs)
  | behind {x : Option Binding} {l : Tree} {ls : List Token} {op : Token} {b : Binding}
      (hop : op.kind = .operator b) (hb : Catalog.Provides op.kind) (hform : b.form = .behind)
      (hl : Written x l ls) (hx : ∀ c ∈ x, b.enclosesLeft c = false) :
      Written (some b) (.node op [l]) (ls ++ [op])
  | call {f o c : Token} {arguments : List Writing} {ts : List Token}
      (hf : f.isFunction = true) (hb : Catalog.Provides f.kind)
      (ho : o.isOpening = true) (hc : c.kind = .parenthesis .closing)
      (harguments : ∀ a ∈ arguments, Written a.top a.tree a.tokens)
      (hts : Separated (arguments.map (·.tokens)) ts) :
      Written none (.node (f.withArity arguments.length) (arguments.map (·.tree)))
        (f :: o :: (ts ++ [c]))
  | group {x : Option Binding} {e : Tree} {o c : Token} {ts : List Token}
      (ho : o.isOpening = true) (hc : c.kind = .parenthesis .closing) (he : Written x e ts) :
      Written none e (o :: (ts ++ [c]))

end Tree

end Formula
