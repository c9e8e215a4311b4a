import Formula.Rpn.Yard

/-!
# The steps of the yard

What one token does to the yard, said by the parts into which its stack falls. A condition
sends out the front of the stack on which it holds (`Yard.sendWhile_of_stack`); a comma and a
closing parenthesis send out what lies above the innermost open parenthesis
(`Yard.comma_of_stack`, `Yard.closing_of_stack`), and fail if there is none.

There is one equation for each sort of token, `Yard.step_cases` says what a step may be that
does not fail, and the yard behind a list of tokens is `Yard.run`. What is proved about the yard
elsewhere quotes these.
-/

namespace Formula

namespace Token

variable {t : Token}

theorem isOpening_iff : t.isOpening = true ↔ t.kind = .parenthesis .opening := by
  constructor
  · intro h
    cases hk : t.kind with
    | parenthesis side => cases side <;> simp [isOpening, hk] at h ⊢
    | value | symbol | operator b | function b | comma => simp [isOpening, hk] at h
  · intro h
    rw [isOpening, h]

theorem isFunction_iff : t.isFunction = true ↔ ∃ b, t.kind = .function b := by
  constructor
  · intro h
    cases hk : t.kind with
    | function b => exact ⟨b, rfl⟩
    | value | symbol | operator b | parenthesis side | comma => simp [isFunction, hk] at h
  · rintro ⟨b, hb⟩
    rw [isFunction, hb]

theorem isOpening_eq_false (h : t.kind ≠ .parenthesis .opening) : t.isOpening = false :=
  Bool.eq_false_iff.mpr (mt isOpening_iff.mp h)

theorem isOpening_of_isFunction (h : t.isFunction = true) : t.isOpening = false := by
  obtain ⟨b, hb⟩ := isFunction_iff.mp h
  exact isOpening_eq_false (by simp [hb])

theorem isFunction_eq_false (h : ∀ b, t.kind ≠ .function b) : t.isFunction = false :=
  Bool.eq_false_iff.mpr fun hf => (isFunction_iff.mp hf).elim h

end Token

namespace Yard

/-! ### Sending and noting -/

/-- Content is noted in the innermost frame, if there is one. -/
theorem noteContent_eq (y : Yard) :
    y.noteContent = { y with frames := y.frames.modifyHead ArgumentFrame.content } := by
  obtain ⟨stack, frames, output⟩ := y
  cases frames <;> rfl

/-- Noting a second time adds nothing to what is noted. -/
theorem modifyHead_content_twice (fs : List ArgumentFrame) :
    (fs.modifyHead ArgumentFrame.content).modifyHead ArgumentFrame.content =
      fs.modifyHead ArgumentFrame.content := by
  cases fs <;> rfl

/-- Neither an open parenthesis nor a function makes way for an operator. -/
theorem yields_eq_false {incoming waiting : Token}
    (h : waiting.isOpening = true ∨ waiting.isFunction = true) :
    yields incoming waiting = false := by
  rw [yields, if_pos (by simpa using h)]

/-- What goes out is the front of the stack on which the condition holds. -/
theorem sendWhile_of_stack {y : Yard} {p : Token → Bool} {sent kept : List Token}
    (hy : y.stack = sent ++ kept) (hsent : ∀ t ∈ sent, p t = true)
    (hkept : ∀ t ∈ kept.head?, p t = false) :
    y.sendWhile p = ⟨kept, y.frames, sent.reverse ++ y.output⟩ := by
  have htake : kept.takeWhile p = [] ∧ kept.dropWhile p = kept := by
    cases kept with
    | nil => exact ⟨rfl, rfl⟩
    | cons t ts => simp [hkept t rfl]
  rw [sendWhile, hy, List.takeWhile_append_of_pos hsent, List.dropWhile_append_of_pos hsent,
    htake.1, htake.2, List.append_nil]

/-- What waits above the innermost open parenthesis goes out. -/
theorem sendInner_of_stack {y : Yard} {inner outer : List Token}
    (hy : y.stack = inner ++ outer) (hinner : ∀ t ∈ inner, t.isOpening = false)
    (houter : ∀ t ∈ outer.head?, t.isOpening = true) :
    y.sendInner = ⟨outer, y.frames, inner.reverse ++ y.output⟩ :=
  sendWhile_of_stack hy (fun t ht => by rw [hinner t ht]; rfl)
    (fun t ht => by rw [houter t ht]; rfl)

/-! ### One equation for each sort of token -/

variable {y : Yard} {t : Token}

/-- An operand is content, and is sent at once. -/
theorem step_operand (ht : t.kind = .value ∨ t.kind = .symbol) :
    y.step t = .ok (y.noteContent.send t) := by
  obtain ht | ht := ht <;> rw [step, ht]

/-- A function is content, and waits. -/
theorem step_function (ht : t.isFunction = true) : y.step t = .ok (y.noteContent.hold t) := by
  obtain ⟨b, hb⟩ := Token.isFunction_iff.mp ht
  rw [step, hb]

theorem step_operator {b : Binding} (ht : t.kind = .operator b) :
    y.step t = .ok (y.operator t) := by
  rw [step, ht]

theorem step_comma (ht : t.kind = .comma) : y.step t = y.comma t := by
  rw [step, ht]

theorem step_opening (ht : t.isOpening = true) : y.step t = .ok (y.opening t) := by
  rw [step, Token.isOpening_iff.mp ht]

theorem step_closing (ht : t.kind = .parenthesis .closing) : y.step t = y.closing t := by
  rw [step, ht]

/-- What a step may be that does not fail. -/
theorem step_cases {y' : Yard} (h : y.step t = .ok y') :
    ((t.kind = .value ∨ t.kind = .symbol) ∧ y' = y.noteContent.send t) ∨
      ((∃ b, t.kind = .operator b) ∧ y' = y.operator t) ∨
      (t.isFunction = true ∧ y' = y.noteContent.hold t) ∨
      (t.isOpening = true ∧ y' = y.opening t) ∨
      (t.kind = .parenthesis .closing ∧ y.closing t = .ok y') ∨
      (t.kind = .comma ∧ y.comma t = .ok y') := by
  cases hk : t.kind with
  | value =>
    rw [step_operand (.inl hk)] at h
    exact .inl ⟨.inl rfl, (Except.ok.inj h).symm⟩
  | symbol =>
    rw [step_operand (.inr hk)] at h
    exact .inl ⟨.inr rfl, (Except.ok.inj h).symm⟩
  | operator b =>
    rw [step_operator hk] at h
    exact .inr (.inl ⟨⟨b, rfl⟩, (Except.ok.inj h).symm⟩)
  | function b =>
    have ht : t.isFunction = true := Token.isFunction_iff.mpr ⟨b, hk⟩
    rw [step_function ht] at h
    exact .inr (.inr (.inl ⟨ht, (Except.ok.inj h).symm⟩))
  | parenthesis side =>
    cases side with
    | opening =>
      have ht : t.isOpening = true := Token.isOpening_iff.mpr hk
      rw [step_opening ht] at h
      exact .inr (.inr (.inr (.inl ⟨ht, (Except.ok.inj h).symm⟩)))
    | closing =>
      rw [step_closing hk] at h
      exact .inr (.inr (.inr (.inr (.inl ⟨rfl, h⟩))))
  | comma =>
    rw [step_comma hk] at h
    exact .inr (.inr (.inr (.inr (.inr ⟨rfl, h⟩))))

/-- An opening parenthesis is content, and begins a frame of its own. -/
theorem opening_eq (y : Yard) (t : Token) :
    y.opening t = ⟨t :: y.stack, .empty :: y.frames.modifyHead .content, y.output⟩ := by
  rw [opening, noteContent_eq, hold]

/-- An operator sends out what makes way for it and waits on top of the rest. -/
theorem operator_of_stack {sent kept : List Token} (hy : y.stack = sent ++ kept)
    (hsent : ∀ w ∈ sent, yields t w = true) (hkept : ∀ w ∈ kept.head?, yields t w = false) :
    y.operator t = ⟨t :: kept, y.frames.modifyHead .content, sent.reverse ++ y.output⟩ := by
  have hnoted : y.noteContent.stack = sent ++ kept := by rw [noteContent_eq]; exact hy
  rw [operator, sendWhile_of_stack hnoted hsent hkept, noteContent_eq, hold]

/-- A comma leaves the innermost open parenthesis on top of the stack. -/
theorem comma_of_stack {inner outer : List Token} {o : Token} {f : ArgumentFrame}
    {fs : List ArgumentFrame} (hy : y.stack = inner ++ o :: outer)
    (hinner : ∀ w ∈ inner, w.isOpening = false) (ho : o.isOpening = true)
    (hf : y.frames = f :: fs) :
    y.comma t = .ok ⟨o :: outer, f.comma :: fs, inner.reverse ++ y.output⟩ := by
  have houter : ∀ w ∈ (o :: outer).head?, w.isOpening = true := by simpa using ho
  rw [comma, sendInner_of_stack hy hinner houter, hf]

/-- A closing parenthesis removes the innermost open one, and its frame gives the function in
front of it its number of arguments. -/
theorem closing_of_stack {inner outer : List Token} {o : Token} {f : ArgumentFrame}
    {fs : List ArgumentFrame} (hy : y.stack = inner ++ o :: outer)
    (hinner : ∀ w ∈ inner, w.isOpening = false) (ho : o.isOpening = true)
    (hf : y.frames = f :: fs) :
    y.closing t = .ok (applyFunction ⟨outer, fs, inner.reverse ++ y.output⟩ f.count) := by
  have houter : ∀ w ∈ (o :: outer).head?, w.isOpening = true := by simpa using ho
  rw [closing, sendInner_of_stack hy hinner houter, hf]

/-- A comma outside of all parentheses is misplaced. -/
theorem comma_of_frames_nil (hf : y.frames = []) :
    y.comma t = .error (.misplacedComma t.position) := by
  rw [comma, hf]

/-- A closing parenthesis without an open one is unbalanced. -/
theorem closing_of_frames_nil (hf : y.frames = []) :
    y.closing t = .error (.unbalancedParenthesis t.position) := by
  rw [closing, hf]
  obtain ⟨_ | ⟨o, outer⟩, frames, output⟩ := y.sendInner <;> rfl

/-- A function on top of the stack goes out with its number of arguments. -/
theorem applyFunction_of_isFunction {top : Token} {stack output : List Token}
    {frames : List ArgumentFrame} {n : Nat} (h : top.isFunction = true) :
    applyFunction ⟨top :: stack, frames, output⟩ n =
      ⟨stack, frames, top.withArity n :: output⟩ :=
  if_pos h

/-- If no function is on top of the stack, the number of arguments is dropped. -/
theorem applyFunction_of_head {stack output : List Token} {frames : List ArgumentFrame}
    (h : ∀ w ∈ stack.head?, w.isFunction = false) (n : Nat) :
    applyFunction ⟨stack, frames, output⟩ n = ⟨stack, frames, output⟩ := by
  cases stack with
  | nil => rfl
  | cons top stack =>
    have htop : ¬top.isFunction = true := Bool.eq_false_iff.mp (h top rfl)
    exact if_neg htop

/-! ### Runs -/

/-- The yard behind a list of tokens. -/
def run (y : Yard) (ts : List Token) : Except ParseError Yard := ts.foldlM step y

@[simp]
theorem run_nil (y : Yard) : y.run [] = .ok y := rfl

theorem run_cons_of_ok {y' : Yard} {ts : List Token} (h : y.step t = .ok y') :
    y.run (t :: ts) = y'.run ts := by
  rw [run, List.foldlM_cons, h]
  rfl

theorem run_cons_of_error {e : ParseError} {ts : List Token} (h : y.step t = .error e) :
    y.run (t :: ts) = .error e := by
  rw [run, List.foldlM_cons, h]
  rfl

/-- A run that gets to its end begins with a step that does not fail. -/
theorem exists_step_of_run {y' : Yard} {ts : List Token} (h : y.run (t :: ts) = .ok y') :
    ∃ y₁, y.step t = .ok y₁ ∧ y₁.run ts = .ok y' := by
  cases hstep : y.step t with
  | error e =>
    rw [run_cons_of_error hstep] at h
    cases h
  | ok y₁ =>
    rw [run_cons_of_ok hstep] at h
    exact ⟨y₁, rfl, h⟩

theorem run_append_of_ok {y' : Yard} {ts us : List Token} (h : y.run ts = .ok y') :
    y.run (ts ++ us) = y'.run us := by
  rw [run, List.foldlM_append]
  exact congrArg (· >>= fun y => us.foldlM step y) h

/-- A group and its frame go when it is closed. -/
theorem run_closing {inner outer output : List Token} {o : Token} {f : ArgumentFrame}
    {fs : List ArgumentFrame} (hinner : ∀ w ∈ inner, w.isOpening = false)
    (ho : o.isOpening = true) (ht : t.kind = .parenthesis .closing) :
    run ⟨inner ++ o :: outer, f :: fs, output⟩ [t] =
      .ok (applyFunction ⟨outer, fs, inner.reverse ++ output⟩ f.count) := by
  rw [run_cons_of_ok ((step_closing ht).trans (closing_of_stack rfl hinner ho rfl)), run_nil]

/-- Without an open parenthesis everything that waits comes out in the end. -/
theorem finish_of_forall (h : ∀ w ∈ y.stack, w.isOpening = false) :
    y.finish = .ok (y.output.reverse ++ y.stack) := by
  have hnone : y.stack.find? (·.isOpening) = none :=
    List.find?_eq_none.mpr fun w hw => Bool.eq_false_iff.mp (h w hw)
  rw [finish, hnone]

end Yard

theorem Rpn.ofTokens_of_run {ts : List Token} {y : Yard} (h : Yard.empty.run ts = .ok y) :
    Rpn.ofTokens ts = y.finish := by
  rw [Rpn.ofTokens]
  exact congrArg (· >>= Yard.finish) h

theorem Rpn.ofTokens_of_run_error {ts : List Token} {e : ParseError}
    (h : Yard.empty.run ts = .error e) : Rpn.ofTokens ts = .error e := by
  rw [Rpn.ofTokens]
  exact congrArg (· >>= Yard.finish) h

end Formula
