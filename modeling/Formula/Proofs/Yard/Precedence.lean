import Formula.Proofs.Tree.Written
import Formula.Proofs.Yard.Steps

/-!
# The yard undoes writing

Tokens that stand for a tree leave the yard in the order of its evaluation
(`Rpn.ofTokens_of_written`).

The yard has only one comparison, of an operator that waits with one that comes in
(`Binding.GivesWay`). It agrees with the rules for parentheses: an operand in front of an
operator may go without them if its operator gives way to that one, and an operand behind it
if that one does not give way to it. The invariant of the run is in `Tree.Written.reads`:
behind the tokens of a tree the operators at its right edge wait on the stack, bind no looser
than the operator at its top, and follow the rest of the tree in the order of evaluation; what
waited below has not moved.
-/

namespace Formula

/-! ### Which operator gives way -/

namespace Binding

/-- An operator that waits gives way to one that comes in and binds looser, or as tightly while
it is grouped from the left. -/
def GivesWay (waiting incoming : Binding) : Prop :=
  waiting.precedence < incoming.precedence ∨
    waiting.precedence = incoming.precedence ∧ incoming.rightAssociative = false

variable {a b c : Binding}

/-- What gives way binds at least as tightly. -/
private theorem GivesWay.le (h : a.GivesWay b) : a.precedence ≤ b.precedence := by
  rw [GivesWay] at h
  omega

private theorem le_of_not_givesWay (h : ¬a.GivesWay b) : b.precedence ≤ a.precedence := by
  rw [GivesWay] at h
  omega

/-- What binds no looser than an operator that gives way gives way, too. -/
theorem GivesWay.of_le (hab : a.precedence ≤ b.precedence) (hbc : b.GivesWay c) :
    a.GivesWay c := by
  obtain hlt | ⟨heq, hright⟩ := hbc
  · exact .inl (by omega)
  · by_cases hlt : a.precedence < c.precedence
    · exact .inl hlt
    · exact .inr ⟨by omega, hright⟩

/-- An operator that does not give way to a second one does not give way to what this makes
give way. -/
theorem not_givesWay_of_givesWay (hab : ¬a.GivesWay b) (hcb : c.GivesWay b) : ¬a.GivesWay c :=
  fun hac => hab (.of_le hac.le hcb)

/-- An operator with one operand stands behind it unless it is grouped from the right. -/
private theorem form_eq_behind_iff :
    b.form = .behind ↔ b.arity ≠ .fixed 2 ∧ b.rightAssociative = false := by
  rw [form]
  grind

/-- An operator with one operand that is grouped from the right stands in front of it. -/
private theorem form_eq_before_iff :
    b.form = .before ↔ b.arity ≠ .fixed 2 ∧ b.rightAssociative = true := by
  rw [form]
  grind

end Binding

namespace Catalog

/-- The operators that the catalog makes of an entry's role. -/
def Role.operators : Role → List Binding
  | .operator b => [b]
  | .sign operation =>
    [⟨operation, additivePrecedence, .fixed 2, false⟩,
      ⟨operation, unaryPrecedence, .fixed 1, true⟩]
  | .function _ | .parenthesis _ | .comma => []

/-- The operators among tokens are those of the entries. -/
theorem mem_operators_of_token {e : Entry} {previous : Option Token} {b : Binding}
    (h : (e.token e.symbol 0 previous).kind = .operator b) : b ∈ e.role.operators := by
  rw [Entry.token] at h
  cases hrole : e.role with
  | operator b' => simp_all [Role.operators]
  | sign operation =>
    have hb : signBinding operation previous = b := by simpa [hrole] using h
    rw [← hb, signBinding, signArity, Role.operators]
    cases previous.any (·.endsOperand) <;> simp
  | function b' | parenthesis side | comma => simp [hrole] at h

/-- Operators with one operand bind equally tightly, and tighter than all others. -/
theorem precedence_of_provides {b : Binding} (hb : Provides (.operator b)) :
    if b.form = .between then unaryPrecedence < b.precedence
    else b.precedence = unaryPrecedence := by
  obtain ⟨e, he, previous, hk⟩ := hb
  have hall : ∀ e ∈ entries, ∀ b ∈ e.role.operators,
      if b.form = .between then unaryPrecedence < b.precedence
      else b.precedence = unaryPrecedence := by
    decide
  exact hall e he b (mem_operators_of_token hk)

end Catalog

namespace Binding

variable {b c : Binding}

/-- An operand in front of an operator goes without parentheses only if its own operator gives
way. -/
theorem givesWay_of_enclosesLeft (hb : Catalog.Provides (.operator b))
    (hc : Catalog.Provides (.operator c)) (hform : b.form ≠ .before)
    (h : b.enclosesLeft c = false) : c.GivesWay b := by
  have hb := Catalog.precedence_of_provides hb
  have hc := Catalog.precedence_of_provides hc
  rw [enclosesLeft] at h
  rw [GivesWay]
  cases hbf : b.form with
  | between => cases hcf : c.form <;> grind
  | before => exact absurd hbf hform
  | behind =>
    have := form_eq_behind_iff.mp hbf
    cases hcf : c.form <;> grind

/-- An operand behind an operator goes without parentheses only if that one does not give way
to the operand's own operator. -/
theorem not_givesWay_of_enclosesRight (hb : Catalog.Provides (.operator b))
    (hc : Catalog.Provides (.operator c)) (hform : b.form ≠ .behind)
    (h : b.enclosesRight c = false) : ¬b.GivesWay c := by
  have hb := Catalog.precedence_of_provides hb
  have hc := Catalog.precedence_of_provides hc
  rw [enclosesRight] at h
  rw [GivesWay]
  cases hbf : b.form with
  | between => cases hcf : c.form <;> grind
  | before =>
    cases hcf : c.form with
    | before =>
      have := form_eq_before_iff.mp hcf
      grind
    | between | behind => grind
  | behind => exact absurd hbf hform

end Binding

namespace Yard

/-! ### Room for an operand -/

/-- A waiting operator is sent by an incoming one exactly if it gives way. -/
theorem yields_iff {incoming waiting : Token} {a b : Binding} (hw : waiting.kind = .operator a)
    (hi : incoming.kind = .operator b) : yields incoming waiting = true ↔ a.GivesWay b := by
  simp [yields, Token.isOpening, Token.isFunction, Token.binding?, hw, hi, Binding.GivesWay]

/-- Does the stack stay as it is while an operand with the operator `top` comes in? What is on
top of it may not be a function and may not give way to that operator. -/
def Admits (y : Yard) (top : Option Binding) : Prop :=
  ∀ w ∈ y.stack.head?, w.isFunction = false ∧
    ∀ a, w.kind = .operator a → ∀ b ∈ top, ¬a.GivesWay b

variable {y : Yard} {x : Option Binding} {b : Binding}

/-- Where an operator may come in, so may what gives way to it. -/
private theorem Admits.mono (h : y.Admits (some b)) (hx : ∀ c ∈ x, c.GivesWay b) : y.Admits x := by
  intro w hw
  refine ⟨(h w hw).1, fun a ha c hc => ?_⟩
  exact Binding.not_givesWay_of_givesWay ((h w hw).2 a ha b rfl) (hx c hc)

private theorem Admits.yields_eq_false (h : y.Admits (some b)) {op : Token}
    (hop : op.kind = .operator b) : ∀ w ∈ y.stack.head?, yields op w = false := by
  intro w hw
  obtain ⟨hfunction, hoperator⟩ := h w hw
  cases hk : w.kind with
  | operator a =>
    rw [Bool.eq_false_iff, Ne, yields_iff hk hop]
    exact hoperator a hk b rfl
  | function a => rw [Token.isFunction_iff.mpr ⟨a, hk⟩] at hfunction; cases hfunction
  | value | symbol | parenthesis side | comma =>
    simp [yields, Token.binding?, hk]

/-- Above an open parenthesis every operand may come in. -/
private theorem admits_of_isOpening {o : Token} {stack output : List Token}
    {frames : List ArgumentFrame} (ho : o.isOpening = true) :
    Admits ⟨o :: stack, frames, output⟩ x := by
  intro w hw
  obtain rfl : o = w := by simpa using hw
  have hk := Token.isOpening_iff.mp ho
  exact ⟨Token.isFunction_eq_false (by simp [hk]), fun a ha => by simp [hk] at ha⟩

/-- Above an operator an operand may come in to which it does not give way. -/
private theorem admits_of_operator {op : Token} {stack output : List Token}
    {frames : List ArgumentFrame} (hop : op.kind = .operator b)
    (hx : ∀ c ∈ x, ¬b.GivesWay c) : Admits ⟨op :: stack, frames, output⟩ x := by
  intro w hw
  obtain rfl : op = w := by simpa using hw
  refine ⟨Token.isFunction_eq_false (by simp [hop]), fun a ha c hc => ?_⟩
  obtain rfl : b = a := by simpa [hop] using ha
  exact hx c hc

/-- What waits is a row of operators that bind no looser than the operator `top`. -/
def WaitsBelow (waiting : List Token) (top : Option Binding) : Prop :=
  ∀ w ∈ waiting, ∃ a, w.kind = .operator a ∧ ∃ b ∈ top, a.precedence ≤ b.precedence

private theorem WaitsBelow.isOpening_eq_false {waiting : List Token} (h : WaitsBelow waiting x) :
    ∀ w ∈ waiting, w.isOpening = false := by
  intro w hw
  obtain ⟨a, ha, -⟩ := h w hw
  exact Token.isOpening_eq_false (by simp [ha])

/-- All of a waiting row gives way to an operator to which its loosest one gives way. -/
theorem WaitsBelow.yields {waiting : List Token} (h : WaitsBelow waiting x) {op : Token}
    (hop : op.kind = .operator b) (hx : ∀ c ∈ x, c.GivesWay b) :
    ∀ w ∈ waiting, yields op w = true := by
  intro w hw
  obtain ⟨a, ha, c, hc, hle⟩ := h w hw
  exact (yields_iff ha hop).mpr (Binding.GivesWay.of_le hle (hx c hc))

/-! ### Reading an operand -/

/-- The tokens `ts` are read as an operand with the operator `top`: wherever there is room for
it, its tokens come out in the order `post`, up to a row of them that still waits on top of
what was there before. -/
def Reads (top : Option Binding) (ts post : List Token) : Prop :=
  ∀ y : Yard, y.Admits top → ∃ waiting sent,
    y.run ts = .ok ⟨waiting ++ y.stack, y.frames.modifyHead .content, sent ++ y.output⟩ ∧
      sent.reverse ++ waiting = post ∧ WaitsBelow waiting top

private theorem reads_leaf {t : Token} (ht : t.kind = .value ∨ t.kind = .symbol) :
    Reads none [t] [t] := by
  intro y _
  refine ⟨[], [t], ?_, rfl, fun w hw => absurd hw List.not_mem_nil⟩
  rw [run_cons_of_ok (step_operand ht), noteContent_eq, run_nil]
  rfl

variable {op : Token} {ls rs l r : List Token} {x' : Option Binding}

/-- An operator behind its first operand: what waits of the operand goes out, nothing else. -/
theorem run_operator_of_reads (hl : Reads x ls l) (hop : op.kind = .operator b)
    (hx : ∀ c ∈ x, c.GivesWay b) (hy : y.Admits (some b)) :
    ∃ sent, y.run (ls ++ [op]) =
        .ok ⟨op :: y.stack, y.frames.modifyHead .content, sent ++ y.output⟩ ∧
      sent.reverse = l := by
  obtain ⟨waiting, sent, hrun, rfl, hwaiting⟩ := hl y (hy.mono hx)
  refine ⟨waiting.reverse ++ sent, ?_, by simp⟩
  rw [run_append_of_ok hrun, run_cons_of_ok (step_operator hop), run_nil,
    operator_of_stack rfl (hwaiting.yields hop hx) (hy.yields_eq_false hop),
    modifyHead_content_twice, List.append_assoc]

/-- An operator behind its operand comes out behind it. -/
private theorem reads_behind (hl : Reads x ls l) (hop : op.kind = .operator b)
    (hx : ∀ c ∈ x, c.GivesWay b) : Reads (some b) (ls ++ [op]) (l ++ [op]) := by
  intro y hy
  obtain ⟨sent, hrun, rfl⟩ := run_operator_of_reads hl hop hx hy
  refine ⟨[op], sent, hrun, rfl, fun w hw => ?_⟩
  obtain rfl : w = op := by simpa using hw
  exact ⟨b, hop, b, rfl, Nat.le_refl _⟩

/-- The operand behind an operator is read on top of this. -/
theorem exists_run_of_reads (hr : Reads x rs r) (hop : op.kind = .operator b)
    (hx : ∀ c ∈ x, ¬b.GivesWay c) (stack output : List Token) (frames : List ArgumentFrame) :
    ∃ waiting sent, run ⟨op :: stack, frames, output⟩ rs =
        .ok ⟨(waiting ++ [op]) ++ stack, frames.modifyHead .content, sent ++ output⟩ ∧
      sent.reverse ++ (waiting ++ [op]) = r ++ [op] ∧
      WaitsBelow (waiting ++ [op]) (some b) := by
  obtain ⟨waiting, sent, hrun, rfl, hwaiting⟩ :=
    hr ⟨op :: stack, frames, output⟩ (admits_of_operator hop hx)
  refine ⟨waiting, sent, by rw [hrun, List.append_assoc]; rfl, by simp, fun w hw => ?_⟩
  obtain hw | hw := List.mem_append.mp hw
  · -- what waits of the operand binds no looser than its top, and this no looser than `op`
    obtain ⟨a, ha, c, hc, hle⟩ := hwaiting w hw
    exact ⟨a, ha, b, rfl, Nat.le_trans hle (Binding.le_of_not_givesWay (hx c hc))⟩
  · obtain rfl : w = op := by simpa using hw
    exact ⟨b, hop, b, rfl, Nat.le_refl _⟩

/-- An operator in front of its operand comes out behind it. -/
private theorem reads_before (hr : Reads x rs r) (hop : op.kind = .operator b)
    (hx : ∀ c ∈ x, ¬b.GivesWay c) : Reads (some b) (op :: rs) (r ++ [op]) := by
  intro y hy
  obtain ⟨waiting, sent, hrun, hpost, hwaiting⟩ :=
    exists_run_of_reads hr hop hx y.stack y.output (y.frames.modifyHead .content)
  refine ⟨waiting ++ [op], sent, ?_, hpost, hwaiting⟩
  have hstep := operator_of_stack (List.nil_append y.stack).symm
    (fun w hw => absurd hw List.not_mem_nil) (hy.yields_eq_false hop)
  rw [run_cons_of_ok (step_operator hop), hstep, List.reverse_nil, List.nil_append, hrun,
    modifyHead_content_twice]

/-- An operator between its operands comes out behind both. -/
private theorem reads_between (hl : Reads x ls l) (hr : Reads x' rs r) (hop : op.kind = .operator b)
    (hx : ∀ c ∈ x, c.GivesWay b) (hx' : ∀ c ∈ x', ¬b.GivesWay c) :
    Reads (some b) (ls ++ op :: rs) (l ++ (r ++ [op])) := by
  intro y hy
  -- the operator waits when the operand behind it comes in, and goes out behind its tokens
  obtain ⟨sent, hrun, rfl⟩ := run_operator_of_reads hl hop hx hy
  obtain ⟨waiting, sent', hrun', hpost, hwaiting⟩ := exists_run_of_reads hr hop hx' y.stack
    (sent ++ y.output) (y.frames.modifyHead .content)
  refine ⟨waiting ++ [op], sent' ++ sent, ?_, ?_, hwaiting⟩
  · rw [← List.singleton_append, ← List.append_assoc, run_append_of_ok hrun, hrun',
      modifyHead_content_twice, List.append_assoc sent']
  · rw [List.reverse_append, List.append_assoc, hpost]

/-! ### Reading a group and a call -/

/-- Behind a closed group of tokens all of them are out. -/
theorem reads_group {o c : Token} {ts post : List Token} (ho : o.isOpening = true)
    (hc : c.kind = .parenthesis .closing) (hts : Reads x ts post) :
    Reads none (o :: (ts ++ [c])) post := by
  intro y hy
  -- there is room for any operand behind an open parenthesis
  obtain ⟨waiting, sent, hrun, rfl, hwaiting⟩ :=
    hts ⟨o :: y.stack, .empty :: y.frames.modifyHead .content, y.output⟩ (admits_of_isOpening ho)
  refine ⟨[], waiting.reverse ++ sent, ?_, by simp, fun w hw => absurd hw List.not_mem_nil⟩
  rw [run_cons_of_ok (step_opening ho), opening_eq, run_append_of_ok hrun, List.modifyHead_cons,
    run_closing hwaiting.isOpening_eq_false ho hc, applyFunction_of_head fun w hw => (hy w hw).1,
    List.append_assoc, List.nil_append]

/-- An argument list in the making: behind `n` arguments with `k` commas in front of them, the
innermost frame has counted all commas, and the tokens of the arguments come out in their
order. -/
theorem run_arguments {arguments : List Tree.Writing} {ts : List Token}
    (harguments : ∀ a ∈ arguments, Reads a.top a.tokens a.tree.postOrder)
    (hts : Tree.Separated (arguments.map (·.tokens)) ts) (hne : arguments ≠ [])
    {o : Token} (ho : o.isOpening = true) (stack output : List Token) (f : ArgumentFrame)
    (fs : List ArgumentFrame) :
    ∃ waiting sent, run ⟨o :: stack, f :: fs, output⟩ ts =
        .ok ⟨waiting ++ o :: stack, ⟨f.commas + (arguments.length - 1), true⟩ :: fs,
          sent ++ output⟩ ∧
      sent.reverse ++ waiting = Tree.postOrders (arguments.map (·.tree)) ∧
      ∀ w ∈ waiting, w.isOpening = false := by
  induction arguments generalizing ts output f with
  | nil => exact absurd rfl hne
  | cons a rest ih =>
    -- the first argument, and behind a comma the others with one comma more in the frame
    obtain ⟨waiting, sent, hrun, hpost, hwaiting⟩ := harguments a List.mem_cons_self
      ⟨o :: stack, f :: fs, output⟩ (admits_of_isOpening ho)
    cases rest with
    | nil =>
      cases hts with
      | one => exact ⟨waiting, sent, hrun, by simpa using hpost, hwaiting.isOpening_eq_false⟩
    | cons a' rest =>
      cases hts with
      | @cons _ _ vs _ comma hcomma hts =>
        obtain ⟨waiting', sent', hrun', hpost', hwaiting'⟩ :=
          ih (fun b hb => harguments b (List.mem_cons_of_mem _ hb)) hts (List.cons_ne_nil _ _)
            (waiting.reverse ++ (sent ++ output)) f.content.comma
        refine ⟨waiting', sent' ++ (waiting.reverse ++ sent), ?_, ?_, hwaiting'⟩
        · have hcommas : f.content.comma.commas + ((a' :: rest).length - 1) =
              f.commas + ((a :: a' :: rest).length - 1) := by
            simp only [ArgumentFrame.comma, ArgumentFrame.content, List.length_cons]
            omega
          rw [run_append_of_ok hrun, run_cons_of_ok ((step_comma hcomma).trans
            (comma_of_stack rfl hwaiting.isOpening_eq_false ho rfl)), hrun', hcommas,
            List.append_assoc, List.append_assoc]
        · rw [List.map_cons, Tree.postOrders_cons, ← hpost', ← hpost]
          simp

/-- A function comes out behind its arguments, with their number settled. -/
theorem reads_call {arguments : List Tree.Writing} {f o c : Token} {ts : List Token}
    (hf : f.isFunction = true) (ho : o.isOpening = true) (hc : c.kind = .parenthesis .closing)
    (harguments : ∀ a ∈ arguments, Reads a.top a.tokens a.tree.postOrder)
    (hts : Tree.Separated (arguments.map (·.tokens)) ts) :
    Reads none (f :: o :: (ts ++ [c]))
      (Tree.postOrders (arguments.map (·.tree)) ++ [f.withArity arguments.length]) := by
  intro y _
  -- the yard behind the function and its parenthesis, and behind the arguments
  have hopen : y.run (f :: o :: (ts ++ [c])) =
      run ⟨o :: f :: y.stack, .empty :: y.frames.modifyHead .content, y.output⟩ (ts ++ [c]) := by
    rw [run_cons_of_ok (step_function hf), run_cons_of_ok (step_opening ho), opening_eq,
      noteContent_eq, hold, modifyHead_content_twice]
  obtain ⟨waiting, sent, frame, hrun, hcount, hpost, hwaiting⟩ :
      ∃ waiting sent frame,
        run ⟨o :: f :: y.stack, .empty :: y.frames.modifyHead .content, y.output⟩ ts =
          .ok ⟨waiting ++ o :: f :: y.stack, frame :: y.frames.modifyHead .content,
            sent ++ y.output⟩ ∧
        frame.count = arguments.length ∧
        sent.reverse ++ waiting = Tree.postOrders (arguments.map (·.tree)) ∧
        ∀ w ∈ waiting, w.isOpening = false := by
    obtain _ | ⟨a, rest⟩ := arguments
    · cases hts
      exact ⟨[], [], .empty, rfl, rfl, by simp, fun w hw => absurd hw List.not_mem_nil⟩
    · obtain ⟨waiting, sent, hrun, hpost, hwaiting⟩ :=
        run_arguments harguments hts (List.cons_ne_nil _ _) ho (f :: y.stack) y.output .empty
          (y.frames.modifyHead .content)
      refine ⟨waiting, sent, _, hrun, ?_, hpost, hwaiting⟩
      simp [ArgumentFrame.count, ArgumentFrame.empty]
  refine ⟨[], f.withArity arguments.length :: (waiting.reverse ++ sent), ?_, ?_,
    fun w hw => absurd hw List.not_mem_nil⟩
  · rw [hopen, run_append_of_ok hrun, run_closing hwaiting ho hc,
      applyFunction_of_isFunction hf, hcount, List.cons_append, List.append_assoc,
      List.nil_append]
  · rw [← hpost]
    simp

end Yard

/-! ### Whole formulas -/

namespace Tree

private theorem Written.provides {b : Binding} {e : Tree} {ts : List Token}
    (h : Written (some b) e ts) : Catalog.Provides (.operator b) := by
  cases h with
  | between hop hb => exact hop ▸ hb
  | before hop hb => exact hop ▸ hb
  | behind hop hb => exact hop ▸ hb

/-- An operand that goes without parentheses in front of an operator gives way to it. -/
theorem Written.givesWay {x : Option Binding} {b : Binding} {e : Tree} {ts : List Token}
    (h : Written x e ts) (hb : Catalog.Provides (.operator b)) (hform : b.form ≠ .before)
    (hx : ∀ c ∈ x, b.enclosesLeft c = false) : ∀ c ∈ x, c.GivesWay b := by
  rintro c rfl
  exact Binding.givesWay_of_enclosesLeft hb h.provides hform (hx c rfl)

/-- An operator does not give way to an operand that goes without parentheses behind it. -/
theorem Written.not_givesWay {x : Option Binding} {b : Binding} {e : Tree} {ts : List Token}
    (h : Written x e ts) (hb : Catalog.Provides (.operator b)) (hform : b.form ≠ .behind)
    (hx : ∀ c ∈ x, b.enclosesRight c = false) : ∀ c ∈ x, ¬b.GivesWay c := by
  rintro c rfl
  exact Binding.not_givesWay_of_enclosesRight hb h.provides hform (hx c rfl)

/-- **Tokens that stand for a tree are read as this tree**, in whatever place it stands. -/
theorem Written.reads {x : Option Binding} {e : Tree} {ts : List Token} (h : Written x e ts) :
    Yard.Reads x ts e.postOrder := by
  induction h with
  | leaf ht => exact Yard.reads_leaf ht
  | @between x y l r ls rs op b hop hb hform hl hr hx hy ihl ihr =>
    have hleft : ∀ c ∈ x, c.GivesWay b := hl.givesWay (hop ▸ hb) (by simp [hform]) hx
    have hright : ∀ c ∈ y, ¬b.GivesWay c := hr.not_givesWay (hop ▸ hb) (by simp [hform]) hy
    simpa using Yard.reads_between ihl ihr hop hleft hright
  | @before y r rs op b hop hb hform hr hy ihr =>
    have hright : ∀ c ∈ y, ¬b.GivesWay c := hr.not_givesWay (hop ▸ hb) (by simp [hform]) hy
    simpa using Yard.reads_before ihr hop hright
  | @behind x l ls op b hop hb hform hl hx ihl =>
    have hleft : ∀ c ∈ x, c.GivesWay b := hl.givesWay (hop ▸ hb) (by simp [hform]) hx
    simpa using Yard.reads_behind ihl hop hleft
  | call hf _ ho hc _ hts ih =>
    rw [postOrder_node]
    exact Yard.reads_call hf ho hc ih hts
  | group ho hc _ ih => exact Yard.reads_group ho hc ih

end Tree

/-- The tokens that stand for a tree leave the yard in the order of its evaluation. -/
theorem Rpn.ofTokens_of_reads {x : Option Binding} {ts post : List Token}
    (h : Yard.Reads x ts post) : Rpn.ofTokens ts = .ok post := by
  obtain ⟨waiting, sent, hrun, rfl, hwaiting⟩ :=
    h Yard.empty fun w hw => absurd hw (Option.not_mem_none w)
  rw [ofTokens_of_run hrun, Yard.finish_of_forall]
  · simp [Yard.empty]
  · simpa [Yard.empty] using hwaiting.isOpening_eq_false

/-- **The yard undoes writing**: tokens that stand for a tree, with parentheses no more than
where they are needed, come out in the order of evaluation of this tree, each function with the
number of its arguments. In particular a power goes without parentheses on both sides of a
product and to the right of another power, as if powers had a level of their own. -/
theorem Rpn.ofTokens_of_written :
    (∀ (x : Option Binding) (e : Tree) (ts : List Token), Tree.Written x e ts →
      Rpn.ofTokens ts = .ok e.postOrder) ∧
    ∀ (a b c : Tree) (as bs cs : List Token) (o : Operation) (power power' product : Token),
      Tree.Written none a as → Tree.Written none b bs → Tree.Written none c cs →
      power.kind = .operator ⟨.power, 5, .fixed 2, true⟩ →
      power'.kind = .operator ⟨.power, 5, .fixed 2, true⟩ →
      product.kind = .operator ⟨o, 5, .fixed 2, false⟩ → o ∈ [.multiply, .divide, .modulo] →
      Rpn.ofTokens (as ++ product :: (bs ++ power :: cs)) =
          .ok (Tree.node product [a, .node power [b, c]]).postOrder ∧
        Rpn.ofTokens (as ++ power :: bs ++ product :: cs) =
          .ok (Tree.node product [.node power [a, b], c]).postOrder ∧
        Rpn.ofTokens (as ++ power :: (bs ++ power' :: cs)) =
          .ok (Tree.node power [a, .node power' [b, c]]).postOrder := by
  refine ⟨fun x e ts h => ofTokens_of_reads h.reads, ?_⟩
  intro a b c as bs cs o power power' product ha hb hc hpower hpower' hproduct ho
  have hpowers : Catalog.Provides (.operator ⟨.power, 5, .fixed 2, true⟩) :=
    ⟨⟨"**", .operator ⟨.power, 5, .fixed 2, true⟩⟩, by decide, none, rfl⟩
  have hproducts : Catalog.Provides (.operator ⟨o, 5, .fixed 2, false⟩) := by
    have hentry : ∀ o ∈ [Operation.multiply, .divide, .modulo],
        ∃ e ∈ Catalog.entries, e.role = .operator ⟨o, 5, .fixed 2, false⟩ := by decide
    obtain ⟨e, he, hrole⟩ := hentry o ho
    exact ⟨e, he, none, by rw [Catalog.Entry.token, hrole]⟩
  have hbc : Tree.Written _ (.node power [b, c]) (bs ++ power :: cs) :=
    .between hpower (hpower ▸ hpowers) rfl hb hc Binding.forall_mem_none Binding.forall_mem_none
  have hbc' : Tree.Written _ (.node power' [b, c]) (bs ++ power' :: cs) :=
    .between hpower' (hpower' ▸ hpowers) rfl hb hc Binding.forall_mem_none Binding.forall_mem_none
  have hab : Tree.Written _ (.node power [a, b]) (as ++ power :: bs) :=
    .between hpower (hpower ▸ hpowers) rfl ha hb Binding.forall_mem_none Binding.forall_mem_none
  refine ⟨ofTokens_of_reads (Tree.Written.between hproduct (hproduct ▸ hproducts) rfl ha hbc
      Binding.forall_mem_none ?_).reads,
    ofTokens_of_reads (Tree.Written.between hproduct (hproduct ▸ hproducts) rfl hab hc
      ?_ Binding.forall_mem_none).reads,
    ofTokens_of_reads (Tree.Written.between hpower (hpower ▸ hpowers) rfl ha hbc'
      Binding.forall_mem_none ?_).reads⟩
  all_goals
    rintro d ⟨⟩
    rfl

/-- The tokens of `max(2*-x**3)`: the sign belongs to `x`, the power to the second factor, and
the product is the only argument. Without the function these are the tokens of a product with a
power behind it. -/
theorem Rpn.ofTokens_max_product_power :
    let two : Token := ⟨"2", .value, 4⟩
    let x : Token := ⟨"x", .symbol, 7⟩
    let three : Token := ⟨"3", .value, 10⟩
    let product : Token := ⟨"*", .operator ⟨.multiply, 5, .fixed 2, false⟩, 5⟩
    let minus : Token := ⟨"-", .operator ⟨.minus, 3, .fixed 1, true⟩, 6⟩
    let power : Token := ⟨"**", .operator ⟨.power, 5, .fixed 2, true⟩, 8⟩
    let max (arity : Arity) : Token := ⟨"max", .function ⟨.max, 0, arity, false⟩, 0⟩
    Rpn.ofTokens [max .variadic, ⟨"(", .parenthesis .opening, 3⟩, two, product, minus, x, power,
        three, ⟨")", .parenthesis .closing, 11⟩] =
      .ok [two, x, minus, three, power, product, max (.fixed 1)] ∧
    Rpn.ofTokens [two, product, x, power, three] = .ok [two, x, three, power, product] := by
  intro two x three product minus power max
  have htwo : Tree.Written none (.leaf two) [two] := .leaf (.inl rfl)
  have hx : Tree.Written none (.leaf x) [x] := .leaf (.inr rfl)
  have hthree : Tree.Written none (.leaf three) [three] := .leaf (.inl rfl)
  have hminus : Tree.Written _ (.node minus [.leaf x]) [minus, x] :=
    .before (b := ⟨.minus, 3, .fixed 1, true⟩) rfl
      ⟨⟨"-", .sign .minus⟩, by decide, none, rfl⟩ rfl hx Binding.forall_mem_none
  have hpower : Tree.Written _ (.node power [.node minus [.leaf x], .leaf three])
      ([minus, x] ++ power :: [three]) :=
    .between (b := ⟨.power, 5, .fixed 2, true⟩) rfl
      ⟨⟨"**", .operator ⟨.power, 5, .fixed 2, true⟩⟩, by decide, none, rfl⟩ rfl hminus hthree
      (by rintro d ⟨⟩; rfl) Binding.forall_mem_none
  have hproduct : Tree.Written _
      (.node product [.leaf two, .node power [.node minus [.leaf x], .leaf three]])
      ([two] ++ product :: ([minus, x] ++ power :: [three])) :=
    .between (b := ⟨.multiply, 5, .fixed 2, false⟩) rfl
      ⟨⟨"*", .operator ⟨.multiply, 5, .fixed 2, false⟩⟩, by decide, none, rfl⟩ rfl htwo hpower
      Binding.forall_mem_none (by rintro d ⟨⟩; rfl)
  have hproducts : ∀ a ∈ [(⟨_, _, _⟩ : Tree.Writing)], Tree.Written a.top a.tree a.tokens :=
    List.forall_mem_singleton.mpr hproduct
  have hcall := Tree.Written.call (f := max .variadic) (o := ⟨"(", .parenthesis .opening, 3⟩)
    (c := ⟨")", .parenthesis .closing, 11⟩) rfl
    ⟨⟨"max", .function ⟨.max, 0, .variadic, false⟩⟩, by decide, none, rfl⟩ rfl rfl
    hproducts (.one _)
  have hmax := Rpn.ofTokens_of_written.1 _ _ _ hcall
  have hpowers := (Rpn.ofTokens_of_written.2 _ _ _ _ _ _ .multiply power power product htwo hx
    hthree rfl rfl rfl (by decide)).1
  exact ⟨hmax, hpowers⟩

end Formula
