import Formula.Proofs.Grammar.Reading
import Formula.Proofs.Rpn.Trees
import Formula.Proofs.Yard.Isolation

/-!
# Surplus operands make up for missing ones

Neither the yard nor the evaluation looks at whether operands and operators alternate. In the end
one value has to be left, and that is a matter of counting: an operand puts a value on the stack,
and an operator or a function takes its operands away and puts one value there (`Token.gain`).

As long as each function is directly followed by its parenthesis, what is in the yard gains as
many values as a reader has noted operands too many, less those that are missing, and one more
where an operand has ended (`Yard.Balanced`). So the tokens of a value have as many surplus
operands as missing ones (`Rpn.gains_of_ofTokens`, `Rpn.gains_of_evaluate`).
-/

namespace Formula

/-! ### Gains -/

namespace Token

/-- How many values more there are on the stack behind the token than in front of it. -/
def gain (t : Token) : Int :=
  match t.kind with
  | .value | .symbol => 1
  | .operator b | .function b =>
    match b.arity with
    | .fixed n => 1 - n
    | .variadic => 0
  | .parenthesis _ | .comma => 0

/-- What the tokens gain together. -/
def gains : List Token → Int
  | [] => 0
  | t :: ts => t.gain + gains ts

variable {t : Token} {b : Binding} {n : Nat}

@[simp]
theorem gains_nil : gains [] = 0 := rfl

@[simp]
theorem gains_cons (t : Token) (ts : List Token) : gains (t :: ts) = t.gain + gains ts := rfl

@[simp]
theorem gains_append (ts us : List Token) : gains (ts ++ us) = gains ts + gains us := by
  induction ts with
  | nil => rw [List.nil_append, gains_nil, Int.zero_add]
  | cons t ts ih => rw [List.cons_append, gains_cons, gains_cons, ih, Int.add_assoc]

@[simp]
theorem gains_reverse (ts : List Token) : gains ts.reverse = gains ts := by
  induction ts with
  | nil => rfl
  | cons t ts ih =>
    rw [List.reverse_cons, gains_append, gains_cons, gains_cons, gains_nil, ih, Int.add_zero,
      Int.add_comm]

private theorem gain_operand (ht : t.kind = .value ∨ t.kind = .symbol) : t.gain = 1 := by
  obtain ht | ht := ht <;> rw [gain, ht]

private theorem gain_binding (hb : t.binding? = some b) (harity : b.arity = .fixed n) :
    t.gain = 1 - n := by
  cases hk : t.kind with
  | operator b' | function b' =>
    obtain rfl : b' = b := by simpa [binding?, hk] using hb
    simp only [gain, hk, harity]
  | value | symbol | parenthesis side | comma => simp [binding?, hk] at hb

/-- A function whose operands are counted loses that many and gains a value. -/
private theorem gain_withArity (ht : t.isFunction = true) (n : Nat) :
    (t.withArity n).gain = 1 - n := by
  obtain ⟨b, hb⟩ := isFunction_iff.mp ht
  exact gain_binding (b := { b with arity := .fixed n }) (by simp [withArity, binding?, hb]) rfl

end Token

open Token (gains)

/-- The trees of a formula gain one value each. -/
theorem Tree.gains_postOrders {cs : List Tree} (h : ∀ c ∈ cs, gains c.postOrder = 1) :
    gains (postOrders cs) = cs.length := by
  induction cs with
  | nil => rfl
  | cons c cs ih =>
    rw [postOrders_cons, Token.gains_append, h c List.mem_cons_self,
      ih fun d hd => h d (List.mem_cons_of_mem _ hd), List.length_cons]
    omega

/-- The tokens of a tree gain one value. -/
private theorem Tree.Formed.gains_postOrder {e : Tree} (h : e.Formed) : gains e.postOrder = 1 := by
  induction h with
  | leaf ht => rw [postOrder_leaf, Token.gains_cons, Token.gain_operand ht, Token.gains_nil]; rfl
  | @node t b cs hb harity _ ih =>
    rw [postOrder_node, Token.gains_append, gains_postOrders ih, Token.gains_cons,
      Token.gain_binding hb harity, Token.gains_nil]
    omega

/-- The tokens of a value gain one value. -/
theorem Rpn.gains_of_evaluate {σ ε : Type} {lookup : Lookup σ ε} {post : List Token} {v : Value}
    {s s' : σ} (h : evaluate lookup post s = (.ok v, s')) : gains post = 1 := by
  obtain ⟨e, he, rfl⟩ := exists_postOrder_of_evaluate h
  exact he.gains_postOrder

/-- How many operands there are too many, less those that are missing. -/
def Flaw.excess (fs : List Flaw) : Int := fs.count .surplus - fs.count .lacking

namespace Flaw

theorem excess_nil : excess [] = 0 := rfl

private theorem excess_surplus : excess [.surplus] = 1 := rfl

theorem excess_lacking : excess [.lacking] = -1 := rfl

private theorem excess_append (fs gs : List Flaw) : excess (fs ++ gs) = excess fs + excess gs := by
  rw [excess, List.count_append, List.count_append, excess, excess]
  omega

end Flaw

open Flaw (excess)

/-! ### What waits in the yard -/

namespace Yard

/-- The stack and the frames of a yard with the given open parentheses, the innermost first and
those of functions marked, in which functions wait for theirs to be closed. The number is what the
stack gains if each call is closed with the arguments that have been met and another one behind
the last comma. -/
inductive Waits : List Bool → List Token → List ArgumentFrame → Int → Prop where
  | nil : Waits [] [] [] 0
  | operator {calls : List Bool} {stack : List Token} {frames : List ArgumentFrame} {n : Int}
      {op : Token} {b : Binding} (hop : op.kind = .operator b) (h : Waits calls stack frames n) :
      Waits calls (op :: stack) frames (op.gain + n)
  | group {calls : List Bool} {stack : List Token} {frames : List ArgumentFrame} {n : Int}
      {o : Token} {f : ArgumentFrame} (ho : o.isOpening = true) (h : Waits calls stack frames n) :
      Waits (false :: calls) (o :: stack) (f :: frames) n
  | call {calls : List Bool} {stack : List Token} {frames : List ArgumentFrame} {n : Int}
      {o g : Token} {f : ArgumentFrame} (ho : o.isOpening = true) (hg : g.isFunction = true)
      (hf : f.hasContent = true) (h : Waits calls stack frames n) :
      Waits (true :: calls) (o :: g :: stack) (f :: frames) (n - f.commas)

variable {calls : List Bool} {stack inner rest output : List Token} {frames : List ArgumentFrame}
  {n : Int} {r : Reading} {y y' : Yard} {t : Token}

namespace Waits

private theorem noteContent (h : Waits calls stack frames n) :
    Waits calls stack (frames.modifyHead .content) n := by
  induction h with
  | nil => exact .nil
  | operator hop _ ih => exact .operator hop ih
  | group ho h => exact .group ho h
  | call ho hg _ h => exact .call ho hg rfl h

/-- What waits above the innermost open parenthesis are operators, and they may go. -/
theorem drop (h : Waits calls (inner ++ rest) frames n)
    (hinner : ∀ w ∈ inner, w.isOpening = false) :
    ∃ m, Waits calls rest frames m ∧ gains inner + m = n := by
  induction inner generalizing n with
  | nil => exact ⟨n, h, by simp⟩
  | cons w inner ih =>
    have hw := hinner w List.mem_cons_self
    generalize hstack : w :: inner ++ rest = stack at h
    cases h with
    | nil => cases hstack
    | operator hop h =>
      obtain ⟨rfl, rfl⟩ := List.cons.inj hstack
      obtain ⟨m, hm, rfl⟩ := ih h fun v hv => hinner v (List.mem_cons_of_mem _ hv)
      exact ⟨m, hm, by rw [Token.gains_cons]; omega⟩
    | group ho | call ho =>
      obtain ⟨rfl, -⟩ := List.cons.inj hstack
      exact absurd (ho.symm.trans hw) (by simp)

/-- No function is on top, as one that waits has its parenthesis above it. -/
theorem isFunction_head (h : Waits calls stack frames n) :
    ∀ w ∈ stack.head?, w.isFunction = false := by
  cases h with
  | nil => nofun
  | operator hop => simp [Token.isFunction, hop]
  | group ho | call ho => simp [Token.isFunction, Token.isOpening_iff.mp ho]

end Waits

/-- The yard has gained `n` values, and another one if an operand has ended. -/
inductive Balanced (n : Int) : Reading → Yard → Prop where
  | operand {calls : List Bool} {stack output : List Token} {frames : List ArgumentFrame} {m : Int}
      (h : Waits calls stack frames m) (hn : gains output + m = n) :
      Balanced n ⟨.operand, calls⟩ ⟨stack, frames, output⟩
  | complete {calls : List Bool} {stack output : List Token} {frames : List ArgumentFrame}
      {m : Int} (h : Waits calls stack frames m) (hn : gains output + m = n + 1) :
      Balanced n ⟨.complete, calls⟩ ⟨stack, frames, output⟩
  | function {calls : List Bool} {stack output : List Token} {frames : List ArgumentFrame}
      {m : Int} {g : Token} (hg : g.isFunction = true) (h : Waits calls stack frames m)
      (hn : gains output + m = n) : Balanced n ⟨.function, calls⟩ ⟨g :: stack, frames, output⟩
  | arguments {calls : List Bool} {stack output : List Token} {frames : List ArgumentFrame}
      {m : Int} {g o : Token} (ho : o.isOpening = true) (hg : g.isFunction = true)
      (h : Waits calls stack frames m) (hn : gains output + m = n) :
      Balanced n ⟨.arguments, true :: calls⟩ ⟨o :: g :: stack, .empty :: frames, output⟩

namespace Balanced

theorem empty : Balanced 0 .start .empty := .operand .nil rfl

/-- What comes in where an operand begins finds the yard as if one had to follow; a surplus
operand is gained. -/
theorem start (h : Balanced n r y) (hr : .uncalled ∉ r.stage.flawsOfStart) :
    ∃ m, Waits r.calls y.stack (y.frames.modifyHead .content) m ∧
      gains y.output + m = n + excess r.stage.flawsOfStart := by
  cases h with
  | operand h hn =>
    exact ⟨_, h.noteContent, by simp only [Stage.flawsOfStart, Flaw.excess_nil]; omega⟩
  | complete h hn =>
    exact ⟨_, h.noteContent, by simp only [Stage.flawsOfStart, Flaw.excess_surplus]; omega⟩
  | function => simp [Stage.flawsOfStart] at hr
  | @arguments calls stack output frames m g o ho hg h hn =>
    refine ⟨m - 0, .call ho hg rfl h, ?_⟩
    simp only [Stage.flawsOfStart, Flaw.excess_nil]
    omega

/-- What comes in where an operand should have ended finds the yard as if it had; a missing
operand is lost. -/
theorem ended (h : Balanced n r y) (hr : .uncalled ∉ r.stage.flawsOfEnd) :
    ∃ m, Waits r.calls y.stack (y.frames.modifyHead .content) m ∧
      gains y.output + m = n + 1 + excess r.stage.flawsOfEnd := by
  cases h with
  | operand h hn =>
    exact ⟨_, h.noteContent, by simp only [Stage.flawsOfEnd, Flaw.excess_lacking]; omega⟩
  | complete h hn =>
    exact ⟨_, h.noteContent, by simp only [Stage.flawsOfEnd, Flaw.excess_nil]; omega⟩
  | function => simp [Stage.flawsOfEnd] at hr
  | @arguments calls stack output frames m g o ho hg h hn =>
    refine ⟨m - 0, .call ho hg rfl h, ?_⟩
    simp only [Stage.flawsOfEnd, Flaw.excess_lacking]
    omega

end Balanced

/-! ### One token -/

/-- An operator takes the place of those that make way for it. -/
theorem Waits.of_operator {b : Binding}
    (h : Waits calls y.stack (y.frames.modifyHead .content) n) (hop : t.kind = .operator b) :
    ∃ stack output m, y.operator t = ⟨stack, y.frames.modifyHead .content, output⟩ ∧
      Waits calls stack (y.frames.modifyHead .content) m ∧
      gains output + m = gains y.output + n + t.gain := by
  have hsent : ∀ w ∈ y.stack.takeWhile (yields t), yields t w = true :=
    List.all_eq_true.mp List.all_takeWhile
  have hopening : ∀ w ∈ y.stack.takeWhile (yields t), w.isOpening = false := by
    intro w hw
    rw [Bool.eq_false_iff]
    intro ho
    exact Bool.false_ne_true ((yields_eq_false (.inl ho)).symm.trans (hsent w hw))
  have hkept : ∀ w ∈ (y.stack.dropWhile (yields t)).head?, yields t w = false :=
    fun w hw => by
      have hhead := List.head?_dropWhile_not (yields t) y.stack
      rwa [Option.mem_def.mp hw] at hhead
  have hsplit : y.stack = y.stack.takeWhile (yields t) ++ y.stack.dropWhile (yields t) :=
    List.takeWhile_append_dropWhile.symm
  rw [hsplit] at h
  obtain ⟨m, hm, rfl⟩ := h.drop hopening
  refine ⟨_, _, _, operator_of_stack hsplit hsent hkept, .operator hop hm, ?_⟩
  rw [Token.gains_append, Token.gains_reverse]
  omega

namespace Balanced

/-- An operand gains a value and ends where it begins. -/
private theorem operand_step (h : Balanced n r y) (ht : t.kind = .value ∨ t.kind = .symbol)
    (hr : .uncalled ∉ r.stage.flawsOfStart) :
    Balanced (n + excess r.stage.flawsOfStart) ⟨.complete, r.calls⟩ (y.noteContent.send t) := by
  obtain ⟨m, hm, hn⟩ := h.start hr
  have houtput : gains (t :: y.output) + m = n + excess r.stage.flawsOfStart + 1 := by
    rw [Token.gains_cons, Token.gain_operand ht]
    omega
  rw [noteContent_eq]
  exact .complete hm houtput

/-- A function waits for its arguments, and nothing is gained so far. -/
private theorem function_step (h : Balanced n r y) (ht : t.isFunction = true)
    (hr : .uncalled ∉ r.stage.flawsOfStart) :
    Balanced (n + excess r.stage.flawsOfStart) ⟨.function, r.calls⟩ (y.noteContent.hold t) := by
  obtain ⟨m, hm, hn⟩ := h.start hr
  rw [noteContent_eq]
  exact .function ht hm hn

/-- An operator in front of its operand gains nothing. -/
theorem before_step {b : Binding} (h : Balanced n r y) (ht : t.kind = .operator b)
    (harity : b.arity = .fixed 1) (hr : .uncalled ∉ r.stage.flawsOfStart) :
    Balanced (n + excess r.stage.flawsOfStart) ⟨.operand, r.calls⟩ (y.operator t) := by
  obtain ⟨m, hm, hn⟩ := h.start hr
  obtain ⟨stack, output, m', hy, hm', hn'⟩ := hm.of_operator ht
  rw [hy]
  have hgain := Token.gain_binding (t := t) (by rw [Token.binding?, ht]) harity
  exact .operand hm' (by omega)

/-- Nor does one behind it. -/
theorem behind_step {b : Binding} (h : Balanced n r y) (ht : t.kind = .operator b)
    (harity : b.arity = .fixed 1) (hr : .uncalled ∉ r.stage.flawsOfEnd) :
    Balanced (n + excess r.stage.flawsOfEnd) ⟨.complete, r.calls⟩ (y.operator t) := by
  obtain ⟨m, hm, hn⟩ := h.ended hr
  obtain ⟨stack, output, m', hy, hm', hn'⟩ := hm.of_operator ht
  rw [hy]
  have hgain := Token.gain_binding (t := t) (by rw [Token.binding?, ht]) harity
  exact .complete hm' (by omega)

/-- An operator between its operands makes one value of two. -/
theorem between_step {b : Binding} (h : Balanced n r y) (ht : t.kind = .operator b)
    (harity : b.arity = .fixed 2) (hr : .uncalled ∉ r.stage.flawsOfEnd) :
    Balanced (n + excess r.stage.flawsOfEnd) ⟨.operand, r.calls⟩ (y.operator t) := by
  obtain ⟨m, hm, hn⟩ := h.ended hr
  obtain ⟨stack, output, m', hy, hm', hn'⟩ := hm.of_operator ht
  rw [hy]
  have hgain := Token.gain_binding (t := t) (by rw [Token.binding?, ht]) harity
  exact .operand hm' (by omega)

/-- A group begins where an operand may begin, and its parenthesis gains nothing. -/
private theorem group_step (h : Balanced n r y) (ht : t.isOpening = true)
    (hr : .uncalled ∉ r.stage.flawsOfStart) :
    Balanced (n + excess r.stage.flawsOfStart) ⟨.operand, false :: r.calls⟩ (y.opening t) := by
  obtain ⟨m, hm, hn⟩ := h.start hr
  rw [opening_eq]
  exact .operand (.group ht hm) hn

/-- The parenthesis behind a function begins its arguments. -/
private theorem call_step (h : Balanced n ⟨.function, calls⟩ y) (ht : t.isOpening = true) :
    Balanced n ⟨.arguments, true :: calls⟩ (y.opening t) := by
  cases h with
  | function hg h hn =>
    rw [opening_eq]
    exact .arguments ht hg h.noteContent hn

/-- A comma sends what waits in front of it, and makes a call take one value more. One in
parentheses that are not those of a function leaves an operand too many. -/
theorem comma_step (h : Balanced n r y) (hy : y.Framed) (hstep : y.comma t = .ok y')
    (hr : .uncalled ∉ r.stage.flawsOfEnd) :
    ∃ call calls, r.calls = call :: calls ∧
      Balanced (n + (if call then 0 else 1) + excess r.stage.flawsOfEnd)
        ⟨.operand, r.calls⟩ y' := by
  obtain ⟨m, hm, hn⟩ := h.ended hr
  obtain ⟨inner, o, outer, f, fs, hstack, hinner, ho, hf, rfl⟩ := exists_of_comma hy hstep
  rw [hstack, hf] at hm
  obtain ⟨m', hm', rfl⟩ := hm.drop hinner
  generalize hcalls : r.calls = calls at hm'
  cases hm' with
  | operator hop => simp [Token.isOpening, hop] at ho
  | group ho h =>
    refine ⟨false, _, rfl, .operand (.group ho h) ?_⟩
    rw [Token.gains_append, Token.gains_reverse]
    simp only [Bool.false_eq_true, if_false]
    omega
  | call ho hg _ h =>
    refine ⟨true, _, rfl, .operand (.call ho hg rfl h) ?_⟩
    rw [Token.gains_append, Token.gains_reverse]
    simp only [ArgumentFrame.comma, ArgumentFrame.content, if_true] at hn ⊢
    omega

/-- A closing parenthesis makes one value of a call and leaves other parentheses alone. -/
theorem closing_step (h : Balanced n r y) (hy : y.Framed) (hstep : y.closing t = .ok y')
    (hstage : r.stage ≠ .arguments) (hr : .uncalled ∉ r.stage.flawsOfEnd) :
    r.calls ≠ [] ∧ Balanced (n + excess r.stage.flawsOfEnd) ⟨.complete, r.calls.tail⟩ y' := by
  obtain ⟨m, hm, hn⟩ : ∃ m, Waits r.calls y.stack y.frames m ∧
      gains y.output + m = n + 1 + excess r.stage.flawsOfEnd := by
    cases h with
    | operand h hn =>
      exact ⟨_, h, by simp only [Stage.flawsOfEnd, Flaw.excess_lacking]; omega⟩
    | complete h hn => exact ⟨_, h, by simp only [Stage.flawsOfEnd, Flaw.excess_nil]; omega⟩
    | function => simp [Stage.flawsOfEnd] at hr
    | arguments => exact absurd rfl hstage
  obtain ⟨inner, o, outer, f, fs, hstack, hinner, ho, hf, rfl⟩ := exists_of_closing hy hstep
  rw [hstack, hf] at hm
  obtain ⟨m', hm', rfl⟩ := hm.drop hinner
  generalize r.calls = calls at hm'
  cases hm' with
  | operator hop => simp [Token.isOpening, hop] at ho
  | group ho h =>
    have houtput : gains (inner.reverse ++ y.output) + m' = n + excess r.stage.flawsOfEnd + 1 := by
      rw [Token.gains_append, Token.gains_reverse]
      omega
    refine ⟨by simp, ?_⟩
    rw [applyFunction_of_head h.isFunction_head]
    exact .complete h houtput
  | @call calls stack _ k _ g _ ho hg hcontent h =>
    have hgain := Token.gain_withArity hg f.count
    rw [ArgumentFrame.count, if_pos hcontent] at hgain ⊢
    have houtput : gains (g.withArity (f.commas + 1) :: (inner.reverse ++ y.output)) + k =
        n + excess r.stage.flawsOfEnd + 1 := by
      rw [Token.gains_cons, Token.gains_append, Token.gains_reverse]
      omega
    refine ⟨by simp, ?_⟩
    rw [applyFunction_of_isFunction hg]
    exact .complete h houtput

/-- A call without arguments puts a value on the stack. -/
theorem closing_arguments_step (h : Balanced n ⟨.arguments, calls⟩ y)
    (hstep : y.closing t = .ok y') : calls ≠ [] ∧ Balanced n ⟨.complete, calls.tail⟩ y' := by
  cases h with
  | @arguments _ stack output frames m g o ho hg h hn =>
    have hgain := Token.gain_withArity hg 0
    have houtput : gains (g.withArity 0 :: output) + m = n + 1 := by
      rw [Token.gains_cons]
      omega
    rw [closing_of_stack (List.nil_append (o :: g :: stack)).symm (by simp) ho rfl,
      applyFunction_of_isFunction hg] at hstep
    obtain rfl := Except.ok.inj hstep
    exact ⟨by simp, .complete h houtput⟩

/-- **A token adds its surplus and missing operands to the balance.** -/
theorem step (h : Balanced n r y) (hy : y.Framed) (hstep : y.step t = .ok y')
    (ht : ∀ b, t.kind = .operator b → b.arity = .fixed 1 ∨ b.arity = .fixed 2)
    (hr : .uncalled ∉ r.flawsOf t) :
    .ungrouped ∉ r.flawsOf t ∧ Balanced (n + excess (r.flawsOf t)) (r.next t) y' := by
  have hstart : .ungrouped ∉ r.stage.flawsOfStart := by cases r.stage <;> decide
  have hend : .ungrouped ∉ r.stage.flawsOfEnd := by cases r.stage <;> decide
  cases hk : t.kind with
  | value | symbol =>
    have ht : t.kind = .value ∨ t.kind = .symbol := by simp [hk]
    rw [step_operand ht] at hstep
    obtain rfl := Except.ok.inj hstep
    simp only [Reading.flawsOf, Reading.next, hk] at hr ⊢
    exact ⟨hstart, h.operand_step ht hr⟩
  | function b =>
    have hg : t.isFunction = true := Token.isFunction_iff.mpr ⟨b, hk⟩
    rw [step_function hg] at hstep
    obtain rfl := Except.ok.inj hstep
    simp only [Reading.flawsOf, Reading.next, hk] at hr ⊢
    exact ⟨hstart, h.function_step hg hr⟩
  | operator b =>
    rw [step_operator hk] at hstep
    obtain rfl := Except.ok.inj hstep
    have hone : b.form ≠ .between → b.arity = .fixed 1 := fun hform =>
      (ht b hk).resolve_right fun h2 => hform (by rw [Binding.form, if_pos h2])
    cases hform : b.form with
    | before =>
      simp only [Reading.flawsOf, Reading.next, hk, hform] at hr ⊢
      exact ⟨hstart, h.before_step hk (hone (by simp [hform])) hr⟩
    | behind =>
      simp only [Reading.flawsOf, Reading.next, hk, hform] at hr ⊢
      exact ⟨hend, h.behind_step hk (hone (by simp [hform])) hr⟩
    | between =>
      simp only [Reading.flawsOf, Reading.next, hk, hform] at hr ⊢
      have harity : b.arity = .fixed 2 := by
        rw [Binding.form] at hform
        grind
      exact ⟨hend, h.between_step hk harity hr⟩
  | comma =>
    rw [step_comma hk] at hstep
    simp only [Reading.flawsOf, Reading.next, hk] at hr ⊢
    have hr' : .uncalled ∉ r.stage.flawsOfEnd := fun hmem => hr (List.mem_append_right _ hmem)
    obtain ⟨call, calls, hcalls, hy'⟩ := h.comma_step hy hstep hr'
    rw [hcalls] at hy' ⊢
    cases call with
    | true => exact ⟨by simpa using hend, by simpa using hy'⟩
    | false =>
      -- in a group that is no call the comma leaves the operand in front of it over
      refine ⟨by simpa using hend, ?_⟩
      rwa [Flaw.excess_append, Flaw.excess_surplus, ← Int.add_assoc]
  | parenthesis side =>
    cases side with
    | opening =>
      have ho : t.isOpening = true := Token.isOpening_iff.mpr hk
      rw [step_opening ho] at hstep
      obtain rfl := Except.ok.inj hstep
      simp only [Reading.flawsOf, Reading.next, hk] at hr ⊢
      by_cases hstage : r.stage = .function
      · obtain ⟨stage, calls⟩ := r
        obtain rfl : stage = .function := hstage
        simp only [if_pos, Flaw.excess_nil, Int.add_zero]
        exact ⟨List.not_mem_nil, h.call_step ho⟩
      · simp only [if_neg hstage] at hr ⊢
        exact ⟨hstart, h.group_step ho hr⟩
    | closing =>
      rw [step_closing hk] at hstep
      simp only [Reading.flawsOf, Reading.next, hk] at hr ⊢
      by_cases hstage : r.stage = .arguments
      · obtain ⟨stage, calls⟩ := r
        obtain rfl : stage = .arguments := hstage
        obtain ⟨hcalls, hy'⟩ := h.closing_arguments_step hstep
        simp only [if_pos, if_neg hcalls, List.append_nil, Flaw.excess_nil, Int.add_zero]
        exact ⟨List.not_mem_nil, hy'⟩
      · simp only [if_neg hstage] at hr ⊢
        obtain ⟨hcalls, hy'⟩ := h.closing_step hy hstep hstage fun hmem =>
          hr (List.mem_append_right _ hmem)
        simp only [if_neg hcalls, List.nil_append]
        exact ⟨hend, hy'⟩

end Balanced

/-- A run that is not stopped adds up the surplus and the missing operands. -/
theorem Balanced.run {ts : List Token} (h : Balanced n r y) (hy : y.Framed)
    (hrun : y.run ts = .ok ⟨stack, [], output⟩) (hstack : ∀ w ∈ stack, w.isOpening = false)
    (hts : ∀ t ∈ ts, ∀ b, t.kind = .operator b → b.arity = .fixed 1 ∨ b.arity = .fixed 2)
    (hr : .uncalled ∉ r.flaws ts) :
    .ungrouped ∉ r.flaws ts ∧ gains output + gains stack = n + 1 + excess (r.flaws ts) := by
  induction ts generalizing n r y with
  | nil =>
    obtain rfl : y = ⟨stack, [], output⟩ := Except.ok.inj hrun
    rw [Reading.flaws, Reading.flawsOfEnd] at hr ⊢
    obtain ⟨m, hm, hn⟩ := h.ended fun hmem => hr (List.mem_append_left _ hmem)
    rw [← List.append_nil stack] at hm
    obtain ⟨m', hm', rfl⟩ := hm.drop hstack
    generalize r.calls = calls at hm'
    cases hm' with
    | nil =>
      have hend : .ungrouped ∉ r.stage.flawsOfEnd := by cases r.stage <;> decide
      simp only [if_true, List.append_nil]
      exact ⟨hend, by simpa using hn⟩
  | cons t ts ih =>
    obtain ⟨y₁, hstep, hrest⟩ := exists_step_of_run hrun
    rw [Reading.flaws_cons, List.mem_append, not_or] at hr
    obtain ⟨hungrouped, hy₁⟩ := h.step hy hstep (hts t List.mem_cons_self) hr.1
    obtain ⟨hungrouped', hgains⟩ := ih hy₁ (hy.of_step hstep) hrest
      (fun u hu => hts u (List.mem_cons_of_mem _ hu)) hr.2
    rw [Reading.flaws_cons, List.mem_append, not_or, Flaw.excess_append]
    exact ⟨⟨hungrouped, hungrouped'⟩, by omega⟩

end Yard

/-- **The tokens in the order of evaluation gain one value, and another one for each surplus
operand; one less for each that is missing.** -/
theorem Rpn.gains_of_ofTokens {ts post : List Token} (h : ofTokens ts = .ok post)
    (hts : ∀ t ∈ ts, ∀ b, t.kind = .operator b → b.arity = .fixed 1 ∨ b.arity = .fixed 2)
    (hr : .uncalled ∉ Token.flaws ts) :
    .ungrouped ∉ Token.flaws ts ∧ gains post = 1 + excess (Token.flaws ts) := by
  obtain ⟨stack, output, hrun, hstack, rfl⟩ := Yard.exists_run_of_ofTokens h
  obtain ⟨hungrouped, hgains⟩ :=
    Yard.Balanced.empty.run Yard.framed_empty hrun hstack hts hr
  refine ⟨hungrouped, ?_⟩
  rw [Token.gains_append, Token.gains_reverse, hgains, Token.flaws]
  omega

end Formula
