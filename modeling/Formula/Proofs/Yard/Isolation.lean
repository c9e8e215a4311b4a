import Formula.Proofs.Yard.Groups
import Formula.Proofs.Yard.Precedence

/-!
# Groups are read by themselves

A yard that has an open parenthesis under all that it does works as it would without anything
below (`Yard.step_above`): no operator sends out what waits under the parenthesis, and a comma
or a closing parenthesis that finds its counterpart finds it above. So tokens that are read by
themselves are read in parentheses wherever an operand may stand, and with the same output
(`Yard.reads_of_ofTokens`).
-/

namespace Formula.Yard

/-! ### A yard on top of another -/

/-- The yard on top of an open parenthesis with its frame and what was there before it. -/
def above (y : Yard) (o : Token) (base : Yard) (f : ArgumentFrame) : Yard :=
  ⟨y.stack ++ o :: base.stack, y.frames ++ f :: base.frames, y.output ++ base.output⟩

variable {y y' base : Yard} {o t : Token} {f : ArgumentFrame}

private theorem exists_noteContent_above (y base : Yard) (o : Token) (f : ArgumentFrame) :
    ∃ f', (y.above o base f).noteContent = y.noteContent.above o base f' := by
  obtain ⟨stack, _ | ⟨g, gs⟩, output⟩ := y
  · exact ⟨f.content, rfl⟩
  · exact ⟨f, rfl⟩

/-- What is sent out on a condition that the parenthesis does not satisfy lies above it. -/
theorem sendWhile_above {p : Token → Bool} (hp : p o = false) :
    (y.above o base f).sendWhile p = (y.sendWhile p).above o base f := by
  have hstack : y.stack = y.stack.takeWhile p ++ y.stack.dropWhile p :=
    List.takeWhile_append_dropWhile.symm
  have hsent : ∀ w ∈ y.stack.takeWhile p, p w = true := List.all_eq_true.mp List.all_takeWhile
  -- what is kept begins with a token that fails the condition, or with the parenthesis
  have hkept : ∀ w ∈ (y.stack.dropWhile p ++ o :: base.stack).head?, p w = false := by
    intro w hw
    rcases hdrop : y.stack.dropWhile p with _ | ⟨v, vs⟩
    · rw [hdrop] at hw
      obtain rfl : o = w := by simpa using hw
      exact hp
    · rw [hdrop] at hw
      obtain rfl : v = w := by simpa using hw
      have hhead := List.head?_dropWhile_not p y.stack
      rw [hdrop] at hhead
      exact hhead
  have hstack_above : (y.above o base f).stack =
      y.stack.takeWhile p ++ (y.stack.dropWhile p ++ o :: base.stack) := by
    rw [← List.append_assoc, ← hstack, above]
  rw [sendWhile_of_stack hstack_above hsent hkept, above, above, sendWhile, List.append_assoc]

/-- An operator inside a group sends nothing from below it. -/
private theorem operator_above (ho : o.isOpening = true) (y base : Yard) (t : Token)
    (f : ArgumentFrame) :
    ∃ f', (y.above o base f).operator t = (y.operator t).above o base f' := by
  obtain ⟨f', hf'⟩ := exists_noteContent_above y base o f
  refine ⟨f', ?_⟩
  rw [operator, hf', sendWhile_above (yields_eq_false (.inl ho))]
  rfl

private theorem applyFunction_above (ho : o.isOpening = true) (n : Nat) :
    (y.above o base f).applyFunction n = (y.applyFunction n).above o base f := by
  obtain ⟨_ | ⟨top, stack⟩, frames, output⟩ := y
  · have hfunction : o.isFunction = false :=
      Token.isFunction_eq_false (by simp [Token.isOpening_iff.mp ho])
    exact applyFunction_of_head (by simpa using hfunction) n
  · rcases htop : top.isFunction with _ | _
    · have hnone : ∀ w ∈ (top :: stack).head?, w.isFunction = false := by simpa using htop
      rw [applyFunction_of_head hnone]
      exact applyFunction_of_head (by simpa using htop) n
    · rw [applyFunction_of_isFunction htop]
      exact applyFunction_of_isFunction htop

/-- A step keeps a frame for each open parenthesis. -/
theorem Framed.of_step (hy : y.Framed) (h : y.step t = .ok y') : y'.Framed := by
  rcases hnest : t.nest y.openings with e | os
  · rw [step_of_nest_error hy hnest] at h
    exact absurd h (by simp)
  · obtain ⟨y'', hstep, hy'', -⟩ := step_of_nest_ok hy hnest
    obtain rfl : y'' = y' := Except.ok.inj (hstep.symm.trans h)
    exact hy''

/-- Where there is a frame there is an open parenthesis. -/
theorem exists_stack_of_frames (hy : y.Framed) {g : ArgumentFrame} {gs : List ArgumentFrame}
    (hg : y.frames = g :: gs) : ∃ inner o' outer, y.stack = inner ++ o' :: outer ∧
      (∀ w ∈ inner, w.isOpening = false) ∧ o'.isOpening = true := by
  rcases hos : y.openings with _ | ⟨o', os⟩
  · rw [frames_of_openings_nil hy hos] at hg
    exact absurd hg (by simp)
  · obtain ⟨inner, outer, hstack, hinner, ho', -⟩ := stack_of_openings hos
    exact ⟨inner, o', outer, hstack, hinner, ho'⟩

/-- A comma that is in place has an open parenthesis before it. -/
theorem exists_of_comma (hy : y.Framed) (h : y.comma t = .ok y') :
    ∃ inner o' outer g gs, y.stack = inner ++ o' :: outer ∧
      (∀ w ∈ inner, w.isOpening = false) ∧ o'.isOpening = true ∧ y.frames = g :: gs ∧
      y' = ⟨o' :: outer, g.comma :: gs, inner.reverse ++ y.output⟩ := by
  cases hframes : y.frames with
  | nil =>
    rw [comma_of_frames_nil hframes] at h
    cases h
  | cons g gs =>
    obtain ⟨inner, o', outer, hstack, hinner, ho'⟩ := exists_stack_of_frames hy hframes
    rw [comma_of_stack hstack hinner ho' hframes] at h
    exact ⟨inner, o', outer, g, gs, hstack, hinner, ho', rfl, (Except.ok.inj h).symm⟩

/-- So has a closing parenthesis. -/
theorem exists_of_closing (hy : y.Framed) (h : y.closing t = .ok y') :
    ∃ inner o' outer g gs, y.stack = inner ++ o' :: outer ∧
      (∀ w ∈ inner, w.isOpening = false) ∧ o'.isOpening = true ∧ y.frames = g :: gs ∧
      y' = applyFunction ⟨outer, gs, inner.reverse ++ y.output⟩ g.count := by
  cases hframes : y.frames with
  | nil =>
    rw [closing_of_frames_nil hframes] at h
    cases h
  | cons g gs =>
    obtain ⟨inner, o', outer, hstack, hinner, ho'⟩ := exists_stack_of_frames hy hframes
    rw [closing_of_stack hstack hinner ho' hframes] at h
    exact ⟨inner, o', outer, g, gs, hstack, hinner, ho', rfl, (Except.ok.inj h).symm⟩

private theorem stack_above {inner outer : List Token} {o' : Token}
    (h : y.stack = inner ++ o' :: outer) :
    (y.above o base f).stack = inner ++ o' :: (outer ++ o :: base.stack) := by
  simp [above, h]

private theorem frames_above {g : ArgumentFrame} {gs : List ArgumentFrame}
    (h : y.frames = g :: gs) :
    (y.above o base f).frames = g :: (gs ++ f :: base.frames) := by
  simp [above, h]

/-- A comma inside a group of the upper yard has nothing to do with the lower one. -/
private theorem comma_above (hy : y.Framed) (h : y.comma t = .ok y') :
    (y.above o base f).comma t = .ok (y'.above o base f) := by
  obtain ⟨inner, o', outer, g, gs, hstack, hinner, ho', hframes, rfl⟩ := exists_of_comma hy h
  rw [comma_of_stack (stack_above hstack) hinner ho' (frames_above hframes)]
  simp [above]

/-- Nor has a closing parenthesis of the upper yard. -/
private theorem closing_above (ho : o.isOpening = true) (hy : y.Framed) (h : y.closing t = .ok y') :
    (y.above o base f).closing t = .ok (y'.above o base f) := by
  obtain ⟨inner, o', outer, g, gs, hstack, hinner, ho', hframes, rfl⟩ := exists_of_closing hy h
  rw [closing_of_stack (stack_above hstack) hinner ho' (frames_above hframes),
    ← applyFunction_above ho]
  simp [above]

/-- **A step on top of an open parenthesis is the step without it.** Only the frame of this
parenthesis may have noted something. -/
theorem step_above (ho : o.isOpening = true) (hy : y.Framed) (h : y.step t = .ok y')
    (base : Yard) (f : ArgumentFrame) :
    ∃ f', (y.above o base f).step t = .ok (y'.above o base f') := by
  obtain ⟨f', hf'⟩ := exists_noteContent_above y base o f
  obtain ⟨ht, rfl⟩ | ⟨⟨b, ht⟩, rfl⟩ | ⟨ht, rfl⟩ | ⟨ht, rfl⟩ | ⟨ht, h⟩ | ⟨ht, h⟩ := step_cases h
  · exact ⟨f', by rw [step_operand ht, hf']; rfl⟩
  · obtain ⟨f'', hf''⟩ := operator_above ho y base t f
    exact ⟨f'', by rw [step_operator ht, hf'']⟩
  · exact ⟨f', by rw [step_function ht, hf']; rfl⟩
  · exact ⟨f', by rw [step_opening ht, opening, hf']; rfl⟩
  · exact ⟨f, by rw [step_closing ht, closing_above ho hy h]⟩
  · exact ⟨f, by rw [step_comma ht, comma_above hy h]⟩

/-- A run on top of an open parenthesis is the run without it. -/
theorem run_above {ts : List Token} (ho : o.isOpening = true) (hy : y.Framed)
    (h : y.run ts = .ok y') (base : Yard) (f : ArgumentFrame) :
    ∃ f', (y.above o base f).run ts = .ok (y'.above o base f') := by
  induction ts generalizing y f with
  | nil =>
    obtain rfl := Except.ok.inj h
    exact ⟨f, rfl⟩
  | cons t ts ih =>
    obtain ⟨y₁, hstep, hrun⟩ := exists_step_of_run h
    obtain ⟨f₁, hf₁⟩ := step_above ho hy hstep base f
    obtain ⟨f', hf'⟩ := ih (hy.of_step hstep) hrun f₁
    exact ⟨f', by rw [run_cons_of_ok hf₁, hf']⟩

/-! ### Whole formulas in parentheses -/

/-- Frames and parentheses stay in step along a row of tokens. -/
private theorem Framed.of_run {ts : List Token} (hy : y.Framed) (h : y.run ts = .ok y') :
    y'.Framed := by
  induction ts generalizing y with
  | nil => exact Except.ok.inj h ▸ hy
  | cons t ts ih =>
    obtain ⟨y₁, hstep, hrun⟩ := exists_step_of_run h
    exact ih (hy.of_step hstep) hrun

/-- Tokens that are read by themselves leave no open parenthesis behind. -/
theorem exists_run_of_ofTokens {ts post : List Token} (h : Rpn.ofTokens ts = .ok post) :
    ∃ waiting sent, empty.run ts = .ok ⟨waiting, [], sent⟩ ∧
      (∀ w ∈ waiting, w.isOpening = false) ∧ sent.reverse ++ waiting = post := by
  rcases hrun : empty.run ts with e | ⟨waiting, frames, sent⟩
  · rw [Rpn.ofTokens_of_run_error hrun] at h
    exact absurd h (by simp)
  · have hframed := framed_empty.of_run hrun
    rw [Rpn.ofTokens_of_run hrun, finish_eq] at h
    rcases hos : (⟨waiting, frames, sent⟩ : Yard).openings with _ | ⟨w, os⟩
    · rw [hos] at h
      obtain rfl : frames = [] := frames_of_openings_nil hframed hos
      refine ⟨waiting, sent, rfl, fun w hw => ?_, Except.ok.inj h⟩
      exact Bool.eq_false_iff.mpr (List.filter_eq_nil_iff.mp hos w hw)
    · rw [hos] at h
      exact absurd h (by simp)

/-- **Tokens that are read by themselves are read in parentheses as an operand**, with the
output that they have by themselves. -/
theorem reads_of_ofTokens {ts post : List Token} {c : Token} (h : Rpn.ofTokens ts = .ok post)
    (ho : o.isOpening = true) (hc : c.kind = .parenthesis .closing) :
    Reads none (o :: (ts ++ [c])) post := by
  intro y hy
  -- the run by itself, and the same run behind the open parenthesis
  obtain ⟨waiting, sent, hrun, hwaiting, rfl⟩ := exists_run_of_ofTokens h
  obtain ⟨f', hf'⟩ := run_above ho framed_empty hrun
    ⟨y.stack, y.frames.modifyHead .content, y.output⟩ .empty
  have hopen : y.opening o =
      empty.above o ⟨y.stack, y.frames.modifyHead .content, y.output⟩ .empty := opening_eq y o
  refine ⟨[], waiting.reverse ++ sent, ?_, by simp, fun w hw => absurd hw List.not_mem_nil⟩
  rw [run_cons_of_ok (step_opening ho), hopen, run_append_of_ok hf', above]
  exact (run_closing hwaiting ho hc).trans (by
    rw [applyFunction_of_head fun w hw => (hy w hw).1, List.append_assoc, List.nil_append])

end Formula.Yard
