import Formula.Proofs.Yard.Isolation
import Mathlib.Data.List.Chain

/-!
# Replacing variables by groups

A name may be replaced by tokens that are read as an operand: the yard does the same with
everything else, and the output of those tokens takes the place of the name
(`Rpn.ofTokens_replace`). This holds of tokens that the yard refuses, too: the errors are the
same.

There is one thing to exclude. A function on top of the stack would take the closing
parenthesis of the group for that of its argument list, so no name may stand directly behind a
function (`Token.Adjoins`). The invariant is that a function is on top of the stack only right
behind its own token (`Yard.Ready`); that no two functions are next to each other on the stack
is what keeps it when a call is closed.
-/

namespace Formula

section ReplaceAll

variable {α : Type}

/-- The list with every element that satisfies the condition replaced by a row of others. -/
def replaceAll (p : α → Bool) (group xs : List α) : List α :=
  xs.flatMap fun x => if p x then group else [x]

variable {p : α → Bool} {group : List α}

theorem replaceAll_cons (x : α) (xs : List α) :
    replaceAll p group (x :: xs) = (if p x then group else [x]) ++ replaceAll p group xs := rfl

private theorem replaceAll_append (xs ys : List α) :
    replaceAll p group (xs ++ ys) = replaceAll p group xs ++ replaceAll p group ys :=
  List.flatMap_append

private theorem replaceAll_eq_self {xs : List α} (h : ∀ x ∈ xs, p x = false) :
    replaceAll p group xs = xs := by
  induction xs with
  | nil => rfl
  | cons x xs ih =>
    have hx : ¬p x = true := Bool.eq_false_iff.mp (h x List.mem_cons_self)
    rw [replaceAll_cons, if_neg hx, ih fun y hy => h y (List.mem_cons_of_mem _ hy),
      List.singleton_append]

/-- Replacing in a reversed row reverses the group as well. -/
private theorem reverse_replaceAll (xs : List α) :
    (replaceAll p group.reverse xs).reverse = replaceAll p group xs.reverse := by
  induction xs with
  | nil => rfl
  | cons x xs ih =>
    rw [replaceAll_cons, List.reverse_append, ih, List.reverse_cons, replaceAll_append,
      replaceAll_cons]
    split <;> simp [replaceAll]

end ReplaceAll

namespace Token

/-- Is the token a literal, a name or a function? -/
def startsOperand (t : Token) : Bool :=
  match t.kind with
  | .value | .symbol | .function _ => true
  | _ => false

/-- May the second token stand directly behind the first? No literal, name or function stands
directly behind a function. -/
def Adjoins (t u : Token) : Prop := t.isFunction = true → u.startsOperand = false

end Token

namespace Yard

variable {p : Token → Bool} {post : List Token} {y y' : Yard} {t : Token}

/-- The yard with tokens replaced in the output; `post` is what replaces them there. -/
def replaced (p : Token → Bool) (post : List Token) (y : Yard) : Yard :=
  { y with output := replaceAll p post.reverse y.output }

/-- Tokens that are not replaced, in front of the output. -/
theorem replaced_append {sent : List Token} (hsent : ∀ w ∈ sent, p w = false)
    (stack output : List Token) (frames : List ArgumentFrame) :
    replaced p post ⟨stack, frames, sent ++ output⟩ =
      ⟨stack, frames, sent ++ replaceAll p post.reverse output⟩ := by
  rw [replaced, replaceAll_append, replaceAll_eq_self hsent]

private theorem replaced_noteContent :
    (y.replaced p post).noteContent = y.noteContent.replaced p post := by
  rw [noteContent_eq, noteContent_eq, replaced, replaced]

/-- What is replaced is in the output, and sending does not look there. -/
private theorem replaced_sendWhile {q : Token → Bool} (hstack : ∀ w ∈ y.stack, p w = false) :
    (y.replaced p post).sendWhile q = (y.sendWhile q).replaced p post := by
  have hsent : ∀ w ∈ (y.stack.takeWhile q).reverse, p w = false := by
    intro w hw
    exact hstack w ((List.takeWhile_prefix q).subset (List.mem_reverse.mp hw))
  rw [sendWhile, sendWhile, replaced_append hsent]
  rfl

private theorem replaced_applyFunction (hp : ∀ w, p w = true → w.kind = .symbol) (n : Nat) :
    (y.replaced p post).applyFunction n = (y.applyFunction n).replaced p post := by
  obtain ⟨_ | ⟨top, stack⟩, frames, output⟩ := y
  · rfl
  · cases htop : top.isFunction with
    | true =>
      -- a function is no name, and neither is it with its number of arguments
      have hsent : ∀ w ∈ [top.withArity n], p w = false := by
        intro w hw
        obtain rfl : w = top.withArity n := by simpa using hw
        obtain ⟨b, hb⟩ := Token.isFunction_iff.mp htop
        refine Bool.eq_false_iff.mpr fun h => ?_
        have hsymbol := hp _ h
        rw [Token.withArity, hb] at hsymbol
        cases hsymbol
      rw [applyFunction_of_isFunction htop]
      exact (applyFunction_of_isFunction htop).trans (replaced_append hsent _ _ _).symm
    | false =>
      have hnone : ∀ w ∈ (top :: stack).head?, w.isFunction = false := by simpa using htop
      rw [applyFunction_of_head hnone]
      exact applyFunction_of_head hnone n

/-- A comma does the same before and after replacing. -/
private theorem replaced_comma (hstack : ∀ w ∈ y.stack, p w = false) :
    (y.replaced p post).comma t = (y.comma t).map (replaced p post) := by
  have hinner : (y.replaced p post).sendInner = y.sendInner.replaced p post :=
    replaced_sendWhile hstack
  rw [comma, comma, hinner]
  obtain ⟨stack, frames, output⟩ := y
  obtain _ | ⟨f, fs⟩ := frames
  · rfl
  · obtain ⟨_ | ⟨top, rest⟩, fs', sent⟩ := sendInner ⟨stack, f :: fs, output⟩ <;> rfl

/-- A closing parenthesis does the same before and after replacing. -/
private theorem replaced_closing (hp : ∀ w, p w = true → w.kind = .symbol)
    (hstack : ∀ w ∈ y.stack, p w = false) :
    (y.replaced p post).closing t = (y.closing t).map (replaced p post) := by
  have hinner : (y.replaced p post).sendInner = y.sendInner.replaced p post :=
    replaced_sendWhile hstack
  rw [closing, closing, hinner]
  obtain ⟨stack, frames, output⟩ := y
  obtain ⟨_ | ⟨top, rest⟩, fs', sent⟩ := sendInner ⟨stack, frames, output⟩
  · rfl
  · obtain _ | ⟨f, fs⟩ := frames
    · rfl
    · exact congrArg Except.ok (replaced_applyFunction (y := ⟨rest, fs, sent⟩) hp f.count)

/-- A step does the same when other tokens are replaced in the output. -/
theorem step_replaced (hp : ∀ w, p w = true → w.kind = .symbol)
    (hstack : ∀ w ∈ y.stack, p w = false) (ht : p t = false) :
    (y.replaced p post).step t = (y.step t).map (replaced p post) := by
  have hsend : (y.noteContent.replaced p post).send t =
      (y.noteContent.send t).replaced p post := by
    have hsent : ∀ w ∈ [t], p w = false := List.forall_mem_singleton.mpr ht
    exact (replaced_append hsent _ _ _).symm
  cases hk : t.kind with
  | value =>
    rw [step_operand (.inl hk), step_operand (.inl hk), replaced_noteContent, hsend]
    rfl
  | symbol =>
    rw [step_operand (.inr hk), step_operand (.inr hk), replaced_noteContent, hsend]
    rfl
  | operator b =>
    have hnoted : ∀ w ∈ y.noteContent.stack, p w = false := by rwa [noteContent_eq]
    rw [step_operator hk, step_operator hk, operator, replaced_noteContent,
      replaced_sendWhile hnoted]
    rfl
  | function b =>
    have hf : t.isFunction = true := Token.isFunction_iff.mpr ⟨b, hk⟩
    rw [step_function hf, step_function hf, replaced_noteContent]
    rfl
  | parenthesis side =>
    cases side with
    | opening =>
      have ho : t.isOpening = true := Token.isOpening_iff.mpr hk
      rw [step_opening ho, step_opening ho, opening_eq, opening_eq]
      rfl
    | closing => rw [step_closing hk, step_closing hk, replaced_closing hp hstack]
  | comma => rw [step_comma hk, step_comma hk, replaced_comma hstack]

/-! ### What a token does to the stack -/

/-- What a token does to the stack, said as far as functions are concerned. -/
inductive Moves (t : Token) : List Token → List Token → Prop where
  | operand {stack : List Token} (ht : t.startsOperand = true) : Moves t stack stack
  | hold {stack kept : List Token} (hkept : kept <:+ stack) (ht : t.kind ≠ .symbol)
      (hfunction : t.isFunction = true → kept = stack) : Moves t stack (t :: kept)
  | comma {stack outer : List Token} {o : Token} (houter : o :: outer <:+ stack)
      (ho : o.isOpening = true) : Moves t stack (o :: outer)
  | close {stack outer : List Token} (houter : outer <:+ stack)
      (hhead : ∀ w ∈ outer.head?, w.isFunction = false) : Moves t stack outer
  | call {stack outer : List Token} {f : Token} (houter : f :: outer <:+ stack)
      (hf : f.isFunction = true) : Moves t stack outer

private theorem moves_closing (hy : y.Framed) (h : y.closing t = .ok y') :
    Moves t y.stack y'.stack := by
  obtain ⟨inner, o, outer, g, gs, hstack, -, -, -, rfl⟩ := exists_of_closing hy h
  have houter : outer <:+ y.stack := ⟨inner ++ [o], by simp [hstack]⟩
  cases outer with
  | nil => exact .close houter (by simp [applyFunction])
  | cons f rest =>
    by_cases hf : f.isFunction = true
    · rw [applyFunction_of_isFunction hf]
      exact .call houter hf
    · have hnone : ∀ w ∈ (f :: rest).head?, w.isFunction = false := by simpa using hf
      rw [applyFunction_of_head hnone]
      exact .close houter hnone

/-- A comma takes what waits above an open parenthesis from the stack. -/
private theorem moves_comma (hy : y.Framed) (h : y.comma t = .ok y') :
    Moves t y.stack y'.stack := by
  obtain ⟨inner, o, outer, g, gs, hstack, -, ho, -, rfl⟩ := exists_of_comma hy h
  exact .comma ⟨inner, hstack.symm⟩ ho

/-- A step moves the stack in one of these ways. -/
theorem moves_of_step (hy : y.Framed) (h : y.step t = .ok y') : Moves t y.stack y'.stack := by
  have hnoted : y.noteContent.stack = y.stack := by rw [noteContent_eq]
  obtain ⟨ht, rfl⟩ | ⟨⟨b, ht⟩, rfl⟩ | ⟨ht, rfl⟩ | ⟨ht, rfl⟩ | ⟨ht, h⟩ | ⟨ht, h⟩ := step_cases h
  · rw [send, hnoted]
    exact .operand (by obtain ht | ht := ht <;> rw [Token.startsOperand, ht])
  · have hf : t.isFunction = false := Token.isFunction_eq_false (by simp [ht])
    refine .hold ?_ (by simp [ht]) fun h => absurd h (Bool.eq_false_iff.mp hf)
    rw [sendWhile, hnoted]
    exact List.dropWhile_suffix _
  · obtain ⟨b, hk⟩ := Token.isFunction_iff.mp ht
    rw [hold, hnoted]
    exact .hold List.suffix_rfl (by simp [hk]) fun _ => rfl
  · rw [opening_eq]
    exact .hold List.suffix_rfl (by simp [Token.isOpening_iff.mp ht]) fun _ => rfl
  · exact moves_closing hy h
  · exact moves_comma hy h

/-! ### The invariant -/

/-- The stack in front of the given tokens: no name waits, no two functions wait next to each
other, and a function is on top only if the next token is no operand. -/
structure Ready (stack ts : List Token) : Prop where
  waiting : ∀ w ∈ stack, w.kind ≠ .symbol
  apart : stack.IsChain fun a b => a.isFunction = true → b.isFunction = false
  called : ∀ top ∈ stack.head?, top.isFunction = true → ∀ t ∈ ts.head?, t.startsOperand = false
  adjoins : ts.IsChain Token.Adjoins

variable {stack stack' ts : List Token}

private theorem startsOperand_of_isFunction (h : t.isFunction = true) : t.startsOperand = true := by
  obtain ⟨b, hb⟩ := Token.isFunction_iff.mp h
  rw [Token.startsOperand, hb]

/-- In front of an operand no function is on top. -/
theorem Ready.head (h : Ready stack (t :: ts)) (ht : t.startsOperand = true) :
    ∀ top ∈ stack.head?, top.isFunction = false := by
  intro top htop
  refine Bool.eq_false_iff.mpr fun hf => ?_
  rw [h.called top htop hf t rfl] at ht
  exact Bool.noConfusion ht

/-- What is left of a stack that is ready is ready if there is no function on top. -/
theorem Ready.of_suffix (h : Ready stack (t :: ts)) (hs : stack' <:+ stack)
    (hhead : ∀ top ∈ stack'.head?, top.isFunction = false) : Ready stack' ts where
  waiting := fun w hw => h.waiting w (hs.subset hw)
  apart := h.apart.suffix hs
  called := fun top htop hf => absurd hf (Bool.eq_false_iff.mp (hhead top htop))
  adjoins := h.adjoins.tail

/-- **A token keeps the stack ready for the next one.** -/
theorem Ready.of_moves (h : Ready stack (t :: ts)) (hmoves : Moves t stack stack') :
    Ready stack' ts := by
  cases hmoves with
  | operand ht => exact h.of_suffix List.suffix_rfl (h.head ht)
  | @hold kept hkept ht hfunction =>
    refine ⟨?_, ?_, ?_, h.adjoins.tail⟩
    · intro w hw
      obtain rfl | hw := List.mem_cons.mp hw
      · exact ht
      · exact h.waiting w (hkept.subset hw)
    · -- a function that comes in finds no function on top
      refine (h.apart.suffix hkept).cons fun b hb hf => ?_
      obtain rfl := hfunction hf
      exact h.head (startsOperand_of_isFunction hf) b hb
    · intro top htop hf u hu
      obtain rfl : t = top := by simpa using htop
      exact h.adjoins.rel_head? hu hf
  | @comma outer o houter ho =>
    refine h.of_suffix houter fun top htop => ?_
    obtain rfl : o = top := by simpa using htop
    exact Token.isFunction_eq_false (by simp [Token.isOpening_iff.mp ho])
  | close houter hhead => exact h.of_suffix houter hhead
  | call houter hf =>
    -- below a function that goes out there is no second one
    exact h.of_suffix ((List.suffix_cons _ stack').trans houter) fun top htop =>
      (h.apart.suffix houter).rel_head? htop hf

/-- Every row of tokens that adjoin can begin. -/
private theorem ready_empty (hts : ts.IsChain Token.Adjoins) : Ready empty.stack ts :=
  ⟨fun w hw => absurd hw List.not_mem_nil, .nil, fun w hw => absurd hw (by simp [empty]), hts⟩

/-- A run that gets to its end leaves the stack ready. -/
theorem ready_of_run (hy : y.Framed) (h : Ready y.stack ts) (hrun : y.run ts = .ok y') :
    Ready y'.stack [] := by
  induction ts generalizing y with
  | nil => exact Except.ok.inj hrun ▸ h
  | cons t ts ih =>
    obtain ⟨y₁, hstep, hrun⟩ := exists_step_of_run hrun
    exact ih (hy.of_step hstep) (h.of_moves (moves_of_step hy hstep)) hrun

/-! ### A step and a run -/

variable {group : List Token}

/-- A name and a group that is read as an operand do the same, their outputs aside. -/
theorem run_group (hgroup : Reads none group post) (hp : p t = true) (hk : t.kind = .symbol)
    (hhead : ∀ top ∈ y.stack.head?, top.isFunction = false) :
    (y.replaced p post).run group = (y.step t).map (replaced p post) := by
  -- no function is on top, so there is room for an operand without an operator
  have hadmits : (y.replaced p post).Admits none :=
    fun top htop => ⟨hhead top htop, fun a _ b hb => absurd hb (Option.not_mem_none b)⟩
  obtain ⟨waiting, sent, hrun, hpost, hwaiting⟩ := hgroup _ hadmits
  -- and of such an operand nothing waits
  obtain rfl : waiting = [] := by
    refine List.eq_nil_iff_forall_not_mem.mpr fun w hw => ?_
    obtain ⟨a, -, b, hb, -⟩ := hwaiting w hw
    exact Option.not_mem_none b hb
  obtain rfl : sent = post.reverse := by rw [← hpost]; simp
  rw [hrun, step_operand (.inr hk), noteContent_eq]
  simp [replaced, send, replaceAll_cons, hp, Except.map]

/-- Reading goes on in the same way, and fails in the same way, when names are replaced by a
group that is read as an operand. -/
theorem run_replace (hp : ∀ w, p w = true → w.kind = .symbol) (hgroup : Reads none group post)
    (hy : y.Framed) (h : Ready y.stack ts) :
    (y.replaced p post).run (replaceAll p group ts) = (y.run ts).map (replaced p post) := by
  induction ts generalizing y with
  | nil => rfl
  | cons t ts ih =>
    -- a token and what takes its place move the yard in the same way
    have hstep : (y.replaced p post).run (if p t then group else [t]) =
        (y.step t).map (replaced p post) := by
      by_cases ht : p t = true
      · have hk := hp t ht
        have hoperand : t.startsOperand = true := by rw [Token.startsOperand, hk]
        rw [if_pos ht, run_group hgroup ht hk (h.head hoperand)]
      · have hstack : ∀ w ∈ y.stack, p w = false := fun w hw =>
          Bool.eq_false_iff.mpr fun hw' => h.waiting w hw (hp w hw')
        rw [if_neg ht, ← step_replaced hp hstack (Bool.eq_false_iff.mpr ht), run,
          List.foldlM_cons]
        exact bind_pure _
    rw [replaceAll_cons]
    rcases hy' : y.step t with e | y'
    · rw [hy'] at hstep
      rw [run_cons_of_error hy', run, List.foldlM_append]
      exact congrArg (· >>= fun y => (replaceAll p group ts).foldlM step y) hstep
    · rw [hy'] at hstep
      rw [run_cons_of_ok hy', run_append_of_ok hstep]
      exact ih (hy.of_step hy') (h.of_moves (moves_of_step hy hy'))

/-- At the end names are replaced in the output, and none waits. -/
theorem finish_replaced (hp : ∀ w, p w = true → w.kind = .symbol)
    (hstack : ∀ w ∈ y.stack, w.kind ≠ .symbol) :
    (y.replaced p post).finish = y.finish.map (replaceAll p post) := by
  have hself : replaceAll p post y.stack = y.stack := replaceAll_eq_self fun w hw =>
    Bool.eq_false_iff.mpr fun hw' => hstack w hw (hp w hw')
  rw [finish_eq, finish_eq]
  have hos : (y.replaced p post).openings = y.openings := rfl
  rw [hos]
  obtain _ | ⟨o, os⟩ := y.openings
  · refine congrArg Except.ok ?_
    rw [replaceAll_append, hself, ← reverse_replaceAll]
    rfl
  · rfl

end Yard

/-- **Names may be replaced by a group.** Reading tokens with names replaced by a row of tokens
that is read as an operand comes to the output with the names replaced by the output of this
row, and to the same error if the tokens are refused. -/
theorem Rpn.ofTokens_replace {p : Token → Bool} {group post ts : List Token}
    (hp : ∀ w, p w = true → w.kind = .symbol) (hgroup : Yard.Reads none group post)
    (hts : ts.IsChain Token.Adjoins) :
    Rpn.ofTokens (replaceAll p group ts) =
      (Rpn.ofTokens ts).map (replaceAll p post) := by
  have hready := Yard.ready_empty hts
  have hrun := Yard.run_replace hp hgroup Yard.framed_empty hready
  have hempty : Yard.empty.replaced p post = Yard.empty := rfl
  rw [hempty] at hrun
  rcases h : Yard.empty.run ts with e | y
  · rw [h] at hrun
    rw [ofTokens_of_run_error h, ofTokens_of_run_error hrun]
    rfl
  · rw [h] at hrun
    rw [ofTokens_of_run h, ofTokens_of_run hrun]
    exact Yard.finish_replaced hp (Yard.ready_of_run Yard.framed_empty hready h).waiting

end Formula
