import Formula.Proofs.Yard.Steps

/-!
# The groups of a formula

The yard refuses tokens for their parentheses and commas alone. It has no count of the open
groups: it knows them from the parentheses on its stack and from its frames, and these agree
(`Yard.Framed`). What a token does to the open parentheses is `Token.nest`, and a step of the
yard does the same to them (`Yard.step_of_nest_ok`, `Yard.step_of_nest_error`).

The statement on whole formulas is `Rpn.ofTokens_eq_groups`. It is said by reading the tokens
once with a count of the open groups: the first comma or closing parenthesis outside of all
groups is the error; if there is none, the last parenthesis left open is; and else the tokens
are accepted.
-/

namespace Formula

namespace Token

/-- The error of the first comma or closing parenthesis outside of all groups, where `depth`
groups are open in front of the tokens. -/
def stray? (depth : Nat) : List Token → Option ParseError
  | [] => none
  | t :: ts =>
    match t.kind, depth with
    | .parenthesis .opening, _ => stray? (depth + 1) ts
    | .parenthesis .closing, d + 1 => stray? d ts
    | .parenthesis .closing, 0 => some (.unbalancedParenthesis t.position)
    | .comma, 0 => some (.misplacedComma t.position)
    | _, _ => stray? depth ts

/-- How many closing parentheses close a group that was opened in front of the tokens. -/
def overhang : List Token → Nat
  | [] => 0
  | t :: ts =>
    match t.kind with
    | .parenthesis .opening => overhang ts - 1
    | .parenthesis .closing => overhang ts + 1
    | _ => overhang ts

/-- The opening parentheses that no token behind them closes. -/
def unclosed : List Token → List Token
  | [] => []
  | t :: ts => if t.isOpening && overhang ts == 0 then t :: unclosed ts else unclosed ts

/-- Reads the groups of a formula and accepts or refuses it for them. -/
def groups (ts : List Token) : Except ParseError Unit :=
  match stray? 0 ts with
  | some e => .error e
  | none =>
    match (unclosed ts).getLast? with
    | some t => .error (.unbalancedParenthesis t.position)
    | none => .ok ()

/-- The open parentheses behind a token, the innermost first. -/
def nest (t : Token) (opened : List Token) : Except ParseError (List Token) :=
  match t.kind, opened with
  | .parenthesis .opening, _ => .ok (t :: opened)
  | .parenthesis .closing, _ :: outer => .ok outer
  | .parenthesis .closing, [] => .error (.unbalancedParenthesis t.position)
  | .comma, [] => .error (.misplacedComma t.position)
  | _, _ => .ok opened

/-- Counting goes on behind a token with the parentheses that it leaves open. -/
theorem stray?_cons (t : Token) (ts opened : List Token) :
    stray? opened.length (t :: ts) = match t.nest opened with
      | .ok os => stray? os.length ts
      | .error e => some e := by
  cases hk : t.kind with
  | parenthesis side => cases side <;> cases opened <;> simp [stray?, nest, hk]
  | comma => cases opened <;> simp [stray?, nest, hk]
  | value | symbol | operator b | function b => simp [stray?, nest, hk]

/-- What a token may do to the open parentheses when it is in its place. -/
theorem nest_cases {t : Token} {opened os : List Token} (h : t.nest opened = .ok os) :
    (t.kind = .parenthesis .opening ∧ os = t :: opened) ∨
      (t.kind = .parenthesis .closing ∧ ∃ o, opened = o :: os) ∨
      (t.kind = .comma ∧ os = opened ∧ ∃ o outer, opened = o :: outer) ∨
      ((∀ side, t.kind ≠ .parenthesis side) ∧ t.kind ≠ .comma ∧ os = opened) := by
  cases hk : t.kind with
  | parenthesis side =>
    cases side with
    | opening => exact .inl ⟨rfl, by simpa [nest, hk] using h.symm⟩
    | closing =>
      cases opened with
      | nil => simp [nest, hk] at h
      | cons o outer =>
        obtain rfl : outer = os := by simpa [nest, hk] using h
        exact .inr (.inl ⟨rfl, o, rfl⟩)
  | comma =>
    cases opened with
    | nil => simp [nest, hk] at h
    | cons o outer =>
      exact .inr (.inr (.inl ⟨rfl, by simpa [nest, hk] using h.symm, o, outer, rfl⟩))
  | value | symbol | operator b | function b =>
    exact .inr (.inr (.inr ⟨by simp, by simp, by simpa [nest, hk] using h.symm⟩))

/-- Only a closing parenthesis and a comma can be out of place, and only outside of all
groups. -/
theorem nest_error_cases {t : Token} {opened : List Token} {e : ParseError}
    (h : t.nest opened = .error e) : opened = [] ∧
      ((t.kind = .parenthesis .closing ∧ e = .unbalancedParenthesis t.position) ∨
        (t.kind = .comma ∧ e = .misplacedComma t.position)) := by
  cases hk : t.kind with
  | parenthesis side => cases side <;> cases opened <;> simp_all [nest]
  | comma => cases opened <;> simp_all [nest]
  | value | symbol | operator b | function b => simp [nest, hk] at h

/-- What is open behind all tokens, said from behind the first of them and from in front of
it. -/
theorem unclosed_append_drop_of_nest {t : Token} {opened os : List Token}
    (h : t.nest opened = .ok os) (ts : List Token) :
    (unclosed ts).reverse ++ os.drop (overhang ts) =
      (unclosed (t :: ts)).reverse ++ opened.drop (overhang (t :: ts)) := by
  obtain ⟨hk, rfl⟩ | ⟨hk, o, rfl⟩ | ⟨hk, rfl, -⟩ | ⟨hside, hcomma, rfl⟩ := nest_cases h
  · -- the parenthesis is closed by what follows, or stays open in front of what does
    cases hts : overhang ts <;> simp [unclosed, overhang, isOpening, hk, hts]
  · simp [unclosed, overhang, isOpening, hk]
  · simp [unclosed, overhang, isOpening, hk]
  · have hopening : t.isOpening = false := isOpening_eq_false (hside .opening)
    have hoverhang : overhang (t :: ts) = overhang ts := by
      rw [overhang]
      split
      case h_1 hk => exact absurd hk (hside .opening)
      case h_2 hk => exact absurd hk (hside .closing)
      case h_3 => rfl
    rw [unclosed, hopening, hoverhang]
    rfl

end Token

namespace Yard

/-! ### The open parentheses of a yard -/

/-- The open parentheses that wait, the innermost first. -/
def openings (y : Yard) : List Token := y.stack.filter (·.isOpening)

/-- There is one frame for each open parenthesis. -/
def Framed (y : Yard) : Prop := y.frames.length = y.openings.length

variable {y : Yard} {t : Token}

/-- The stack with an open parenthesis falls into what waits above it, the parenthesis and the
rest. -/
theorem stack_of_openings {o : Token} {os : List Token} (h : y.openings = o :: os) :
    ∃ inner outer, y.stack = inner ++ o :: outer ∧ (∀ w ∈ inner, w.isOpening = false) ∧
      o.isOpening = true ∧ outer.filter (·.isOpening) = os := by
  obtain ⟨inner, outer, hy, hinner, ho, hos⟩ := List.filter_eq_cons_iff.mp h
  exact ⟨inner, outer, hy, fun w hw => Bool.eq_false_iff.mpr (hinner w hw), ho, hos⟩

/-- Behind an open parenthesis there is its frame. -/
private theorem frames_of_openings {o : Token} {os : List Token} (hy : y.Framed)
    (h : y.openings = o :: os) : ∃ f fs, y.frames = f :: fs ∧ fs.length = os.length := by
  have hlength : y.frames.length = os.length + 1 := by rw [hy, h, List.length_cons]
  obtain ⟨f, fs, hf⟩ := List.exists_cons_of_length_eq_add_one hlength
  exact ⟨f, fs, hf, by rw [hf, List.length_cons] at hlength; omega⟩

theorem frames_of_openings_nil (hy : y.Framed) (h : y.openings = []) : y.frames = [] :=
  List.eq_nil_of_length_eq_zero (by rw [hy, h, List.length_nil])

@[simp]
theorem openings_noteContent : y.noteContent.openings = y.openings := by
  rw [noteContent_eq, openings, openings]

@[simp]
theorem length_frames_noteContent : y.noteContent.frames.length = y.frames.length := by
  rw [noteContent_eq, List.length_modifyHead]

/-- Sending out anything else than open parentheses keeps these. -/
theorem openings_sendWhile {p : Token → Bool} (hp : ∀ w, p w = true → w.isOpening = false) :
    (y.sendWhile p).openings = y.openings := by
  have hsent : (y.stack.takeWhile p).filter (·.isOpening) = [] :=
    List.filter_eq_nil_iff.mpr fun w hw =>
      Bool.eq_false_iff.mp (hp w (List.all_eq_true.mp List.all_takeWhile w hw))
  calc (y.stack.dropWhile p).filter (·.isOpening)
      = (y.stack.takeWhile p ++ y.stack.dropWhile p).filter (·.isOpening) := by
        rw [List.filter_append, hsent, List.nil_append]
    _ = y.openings := by rw [List.takeWhile_append_dropWhile, openings]

private theorem openings_hold (ht : t.isOpening = false) : (y.hold t).openings = y.openings := by
  rw [openings, hold, List.filter_cons_of_neg (by simp [ht]), openings]

/-- An operator sends no parenthesis away. -/
private theorem openings_operator {b : Binding} (ht : t.kind = .operator b) :
    (y.operator t).openings = y.openings := by
  have hopening : t.isOpening = false := Token.isOpening_eq_false (by simp [ht])
  have hyields : ∀ w, yields t w = true → w.isOpening = false := by
    intro w hw
    rw [Bool.eq_false_iff]
    intro ho
    rw [yields_eq_false (.inl ho)] at hw
    exact Bool.false_ne_true hw
  rw [operator, openings_hold hopening, openings_sendWhile hyields, openings_noteContent]

private theorem openings_applyFunction (n : Nat) : (y.applyFunction n).openings = y.openings := by
  obtain ⟨_ | ⟨top, stack⟩, frames, output⟩ := y
  · rfl
  · cases htop : top.isFunction with
    | true =>
      have hopening : top.isOpening = false := Token.isOpening_of_isFunction htop
      rw [applyFunction_of_isFunction htop, openings, openings,
        List.filter_cons_of_neg (by simp [hopening])]
    | false => rw [applyFunction_of_head (by simpa using htop)]

@[simp]
theorem frames_applyFunction (n : Nat) : (y.applyFunction n).frames = y.frames := by
  obtain ⟨_ | ⟨top, stack⟩, frames, output⟩ := y
  · rfl
  · cases htop : top.isFunction with
    | true => rw [applyFunction_of_isFunction htop]
    | false => rw [applyFunction_of_head (by simpa using htop)]

/-! ### A step and a run -/

/-- A token that is neither a parenthesis nor a comma leaves the groups alone. -/
theorem step_ungrouped (hside : ∀ side, t.kind ≠ .parenthesis side) (hcomma : t.kind ≠ .comma) :
    ∃ y', y.step t = .ok y' ∧ y'.frames.length = y.frames.length ∧
      y'.openings = y.openings := by
  have ht : t.isOpening = false := Token.isOpening_eq_false (hside .opening)
  cases hk : t.kind with
  | value =>
    exact ⟨_, step_operand (.inl hk), length_frames_noteContent, openings_noteContent⟩
  | symbol =>
    exact ⟨_, step_operand (.inr hk), length_frames_noteContent, openings_noteContent⟩
  | operator b =>
    exact ⟨_, step_operator hk, length_frames_noteContent, openings_operator hk⟩
  | function b =>
    refine ⟨_, step_function (Token.isFunction_iff.mpr ⟨b, hk⟩), length_frames_noteContent, ?_⟩
    rw [openings_hold ht, openings_noteContent]
  | parenthesis side => exact absurd hk (hside side)
  | comma => exact absurd hk hcomma

private theorem openings_opening (ht : t.isOpening = true) :
    (y.opening t).openings = t :: y.openings := by
  rw [opening_eq, openings, List.filter_cons_of_pos ht, openings]

private theorem framed_opening (hy : y.Framed) (ht : t.isOpening = true) :
    (y.opening t).Framed := by
  rw [Framed, openings_opening ht, List.length_cons, ← hy, opening_eq, List.length_cons,
    List.length_modifyHead]

/-- A closing parenthesis takes the innermost open one away, and its frame. -/
theorem step_closing_of_framed (hy : y.Framed) (ht : t.kind = .parenthesis .closing) {o : Token}
    {os : List Token} (hopen : y.openings = o :: os) :
    ∃ y', y.step t = .ok y' ∧ y'.Framed ∧ y'.openings = os := by
  obtain ⟨inner, rest, hstack, hinner, ho, rfl⟩ := stack_of_openings hopen
  obtain ⟨f, fs, hf, hlength⟩ := frames_of_openings hy hopen
  refine ⟨_, (step_closing ht).trans (closing_of_stack hstack hinner ho hf), ?_, ?_⟩
  · rw [Framed, frames_applyFunction, openings_applyFunction, hlength, openings]
  · rw [openings_applyFunction, openings]

/-- A comma inside a group leaves the open parentheses and the number of frames as they are. -/
theorem step_comma_of_framed (hy : y.Framed) (ht : t.kind = .comma) {o : Token}
    {os : List Token} (hopen : y.openings = o :: os) :
    ∃ y', y.step t = .ok y' ∧ y'.Framed ∧ y'.openings = y.openings := by
  obtain ⟨inner, rest, hstack, hinner, ho, hrest⟩ := stack_of_openings hopen
  obtain ⟨f, fs, hf, hlength⟩ := frames_of_openings hy hopen
  have hos : (o :: rest).filter (·.isOpening) = y.openings := by
    rw [List.filter_cons_of_pos ho, hrest, hopen]
  refine ⟨_, (step_comma ht).trans (comma_of_stack hstack hinner ho hf), ?_, hos⟩
  rw [Framed, openings, hos, hopen, List.length_cons, List.length_cons, hlength]

/-- A step does to the open parentheses what the token does, and keeps a frame for each. -/
theorem step_of_nest_ok (hy : y.Framed) {os : List Token} (h : t.nest y.openings = .ok os) :
    ∃ y', y.step t = .ok y' ∧ y'.Framed ∧ y'.openings = os := by
  obtain ⟨hk, rfl⟩ | ⟨hk, o, hopen⟩ | ⟨hk, rfl, o, outer, hopen⟩ | ⟨hside, hcomma, rfl⟩ :=
    Token.nest_cases h
  · have ht : t.isOpening = true := Token.isOpening_iff.mpr hk
    exact ⟨y.opening t, step_opening ht, framed_opening hy ht, openings_opening ht⟩
  · exact step_closing_of_framed hy hk hopen
  · exact step_comma_of_framed hy hk hopen
  · obtain ⟨y', hstep, hlength, hos⟩ := step_ungrouped hside hcomma
    exact ⟨y', hstep, by rw [Framed, hlength, hy, hos], hos⟩

/-- A step fails where the token does, with the same error. -/
theorem step_of_nest_error (hy : y.Framed) {e : ParseError}
    (h : t.nest y.openings = .error e) : y.step t = .error e := by
  obtain ⟨hopen, ⟨hk, rfl⟩ | ⟨hk, rfl⟩⟩ := Token.nest_error_cases h
  · rw [step_closing hk, closing_of_frames_nil (frames_of_openings_nil hy hopen)]
  · rw [step_comma hk, comma_of_frames_nil (frames_of_openings_nil hy hopen)]

theorem framed_empty : empty.Framed := rfl

/-- A run fails where the reading of its groups does. -/
theorem run_of_stray {ts : List Token} {e : ParseError} (hy : y.Framed)
    (h : Token.stray? y.openings.length ts = some e) : y.run ts = .error e := by
  induction ts generalizing y with
  | nil => cases h
  | cons t ts ih =>
    cases hnest : t.nest y.openings with
    | error e' =>
      rw [Token.stray?_cons, hnest] at h
      obtain rfl : e' = e := Option.some.inj h
      exact run_cons_of_error (step_of_nest_error hy hnest)
    | ok os =>
      rw [Token.stray?_cons, hnest] at h
      obtain ⟨y', hstep, hy', rfl⟩ := step_of_nest_ok hy hnest
      rw [run_cons_of_ok hstep]
      exact ih hy' h

/-- A run without misplaced tokens closes as many of the open groups as it has closing
parentheses too many, and opens those that it does not close. -/
theorem run_of_stray_none {ts : List Token} (hy : y.Framed)
    (h : Token.stray? y.openings.length ts = none) :
    ∃ y', y.run ts = .ok y' ∧ y'.Framed ∧
      y'.openings = (Token.unclosed ts).reverse ++ y.openings.drop (Token.overhang ts) := by
  induction ts generalizing y with
  | nil => exact ⟨y, rfl, hy, rfl⟩
  | cons t ts ih =>
    cases hnest : t.nest y.openings with
    | error e =>
      rw [Token.stray?_cons, hnest] at h
      cases h
    | ok os =>
      rw [Token.stray?_cons, hnest] at h
      obtain ⟨y₁, hstep, hy₁, rfl⟩ := step_of_nest_ok hy hnest
      obtain ⟨y₂, hrun, hy₂, hos⟩ := ih hy₁ h
      refine ⟨y₂, (run_cons_of_ok hstep).trans hrun, hy₂, ?_⟩
      rw [hos, Token.unclosed_append_drop_of_nest hnest ts]

/-- The first of the open parentheses, if there is one, is the error at the end. -/
theorem finish_eq (y : Yard) :
    y.finish = match y.openings.head? with
      | some t => .error (.unbalancedParenthesis t.position)
      | none => .ok (y.output.reverse ++ y.stack) := by
  have hhead : y.stack.find? (·.isOpening) = y.openings.head? := List.head?_filter.symm
  rw [← hhead]
  rfl

end Yard

/-- **The tokens of a formula are accepted or refused for their groups alone.** A comma or a
closing parenthesis outside of all groups is the error, the first of them if there are several;
without such, the last parenthesis that is left open is; and else there is an output. -/
theorem Rpn.ofTokens_eq_groups (ts : List Token) :
    (Rpn.ofTokens ts).map (fun _ => ()) = Token.groups ts := by
  rw [Token.groups]
  cases hstray : Token.stray? 0 ts with
  | some e => rw [ofTokens_of_run_error (Yard.run_of_stray Yard.framed_empty hstray)]; rfl
  | none =>
    obtain ⟨y, hrun, -, hos⟩ := Yard.run_of_stray_none Yard.framed_empty hstray
    have hhead : y.openings.head? = (Token.unclosed ts).getLast? := by
      rw [hos, Yard.openings, Yard.empty, List.filter_nil, List.drop_nil, List.append_nil,
        List.head?_reverse]
    rw [ofTokens_of_run hrun, Yard.finish_eq, hhead]
    cases (Token.unclosed ts).getLast? <;> rfl

/-- In `(a,(` both groups stay open, and the error is at the second one. -/
example : Token.groups [⟨"(", .parenthesis .opening, 0⟩, ⟨"a", .symbol, 1⟩, ⟨",", .comma, 2⟩,
    ⟨"(", .parenthesis .opening, 3⟩] = .error (.unbalancedParenthesis 3) := rfl

end Formula
