import Formula.Evaluate
import Formula.Proofs.Evaluation
import Formula.Proofs.Yard.Steps

/-!
# Positions are for errors alone

The position of a token is told in errors and has no other part in reading and evaluating a
formula. `Token.unplaced` puts all tokens at the front of the text, and `ParseError.unplaced`
says the same of an error: reading and evaluating tokens without their positions comes to the
same as forgetting the positions in what the tokens come to (`Rpn.value_unplaced`).
-/

namespace Formula

/-! ### Without positions -/

/-- The token without its position. -/
def Token.unplaced (t : Token) : Token := { t with position := 0 }

/-- The error without the position that it names. -/
def ParseError.unplaced : ParseError → ParseError
  | unrecognizedInput text _ => unrecognizedInput text 0
  | invalidLiteral text => invalidLiteral text
  | unbalancedParenthesis _ => unbalancedParenthesis 0
  | misplacedComma _ => misplacedComma 0

/-- The error without the position that it names. -/
def Error.unplaced : Error → Error
  | parse e => parse e.unplaced
  | runtime e => runtime e

variable {σ ε α β : Type}

/-- The failure without the position that it names. -/
def Failure.unplaced : Failure ε → Failure ε
  | fault e => fault e.unplaced
  | lookup e => lookup e

/-- The yard with no positions in it. -/
def Yard.unplaced (y : Yard) : Yard :=
  ⟨y.stack.map Token.unplaced, y.frames, y.output.map Token.unplaced⟩

/-- The computation with no position in its failure. -/
def Evaluation.unplaced (m : Evaluation σ ε α) : Evaluation σ ε α := m.adapt Failure.unplaced

/-! ### The yard -/

namespace Yard

/-- What is read, mapped, or the error without its position. -/
def mapUnplaced (f : α → β) (r : Except ParseError α) : Except ParseError β :=
  (r.map f).mapError ParseError.unplaced

variable (y : Yard) (t : Token)

@[simp]
theorem unplaced_noteContent : y.unplaced.noteContent = y.noteContent.unplaced := by
  rw [noteContent_eq, noteContent_eq, unplaced, unplaced]

private theorem unplaced_sendWhile {p q : Token → Bool} (h : ∀ w : Token, p w.unplaced = q w) :
    y.unplaced.sendWhile p = (y.sendWhile q).unplaced := by
  have hpq : p ∘ Token.unplaced = q := funext h
  rw [sendWhile, sendWhile, unplaced, unplaced, List.takeWhile_map, List.dropWhile_map, hpq]
  simp

private theorem unplaced_sendInner : y.unplaced.sendInner = y.sendInner.unplaced :=
  y.unplaced_sendWhile fun _ => rfl

private theorem unplaced_operator : y.unplaced.operator t.unplaced = (y.operator t).unplaced := by
  have hsend := y.noteContent.unplaced_sendWhile
    (fun w => (rfl : yields t.unplaced w.unplaced = yields t w))
  rw [operator, unplaced_noteContent, hsend]
  rfl

private theorem unplaced_opening : y.unplaced.opening t.unplaced = (y.opening t).unplaced := by
  rw [opening_eq, opening_eq]
  rfl

/-- A comma does the same wherever its token and the others come from, the position in its error
aside. -/
private theorem unplaced_comma :
    y.unplaced.comma t.unplaced = mapUnplaced unplaced (y.comma t) := by
  rw [comma, comma, unplaced_sendInner]
  obtain ⟨stack, frames, output⟩ := y
  obtain _ | ⟨f, fs⟩ := frames
  · rfl
  · obtain ⟨_ | ⟨top, rest⟩, fs', sent⟩ := sendInner ⟨stack, f :: fs, output⟩ <;> rfl

private theorem unplaced_withArity (n : Nat) :
    t.unplaced.withArity n = (t.withArity n).unplaced := by
  obtain ⟨text, kind, position⟩ := t
  obtain _ | _ | _ | _ | _ | _ := kind <;> rfl

private theorem unplaced_applyFunction (n : Nat) :
    y.unplaced.applyFunction n = (y.applyFunction n).unplaced := by
  obtain ⟨_ | ⟨top, stack⟩, frames, output⟩ := y
  · rfl
  · cases htop : top.isFunction with
    | true =>
      have htop' : top.unplaced.isFunction = true := htop
      rw [applyFunction_of_isFunction htop, unplaced, List.map_cons,
        applyFunction_of_isFunction htop', unplaced_withArity]
      rfl
    | false =>
      have hnone : ∀ w ∈ (top :: stack).head?, w.isFunction = false := by simpa using htop
      have hnone' : ∀ w ∈ ((top :: stack).map Token.unplaced).head?, w.isFunction = false := by
        intro w hw
        obtain rfl : top.unplaced = w := by simpa using hw
        exact htop
      rw [applyFunction_of_head hnone, unplaced, applyFunction_of_head hnone']

/-- A closing parenthesis does the same wherever its token and the others come from. -/
private theorem unplaced_closing :
    y.unplaced.closing t.unplaced = mapUnplaced unplaced (y.closing t) := by
  rw [closing, closing, unplaced_sendInner]
  obtain ⟨stack, frames, output⟩ := y
  obtain ⟨_ | ⟨top, rest⟩, fs', sent⟩ := sendInner ⟨stack, frames, output⟩
  · rfl
  · obtain _ | ⟨f, fs⟩ := frames
    · rfl
    · exact congrArg Except.ok (unplaced_applyFunction ⟨rest, fs, sent⟩ f.count)

/-- A step without positions. -/
theorem step_unplaced : y.unplaced.step t.unplaced = mapUnplaced unplaced (y.step t) := by
  have hkind : t.unplaced.kind = t.kind := rfl
  cases hk : t.kind with
  | value =>
    rw [step_operand (.inl hk), step_operand (.inl (hkind.trans hk)), unplaced_noteContent]
    rfl
  | symbol =>
    rw [step_operand (.inr hk), step_operand (.inr (hkind.trans hk)), unplaced_noteContent]
    rfl
  | operator b =>
    rw [step_operator hk, step_operator (hkind.trans hk), unplaced_operator]
    rfl
  | function b =>
    have ht : t.isFunction = true := Token.isFunction_iff.mpr ⟨b, hk⟩
    have ht' : t.unplaced.isFunction = true := ht
    rw [step_function ht, step_function ht', unplaced_noteContent]
    rfl
  | parenthesis side =>
    cases side with
    | opening =>
      have ht : t.isOpening = true := Token.isOpening_iff.mpr hk
      have ht' : t.unplaced.isOpening = true := ht
      rw [step_opening ht, step_opening ht', unplaced_opening]
      rfl
    | closing => rw [step_closing hk, step_closing (hkind.trans hk), unplaced_closing]
  | comma => rw [step_comma hk, step_comma (hkind.trans hk), unplaced_comma]

/-- A run without positions. -/
theorem run_unplaced (ts : List Token) :
    y.unplaced.run (ts.map Token.unplaced) = mapUnplaced unplaced (y.run ts) := by
  induction ts generalizing y with
  | nil => rfl
  | cons t ts ih =>
    rcases hstep : y.step t with e | y'
    · have hstep' : y.unplaced.step t.unplaced = .error e.unplaced := by
        rw [step_unplaced, hstep]
        rfl
      rw [List.map_cons, run_cons_of_error hstep, run_cons_of_error hstep']
      rfl
    · have hstep' : y.unplaced.step t.unplaced = .ok y'.unplaced := by
        rw [step_unplaced, hstep]
        rfl
      rw [List.map_cons, run_cons_of_ok hstep, run_cons_of_ok hstep', ih]

private theorem finish_unplaced :
    y.unplaced.finish = mapUnplaced (List.map Token.unplaced) y.finish := by
  have hfind : y.unplaced.stack.find? (·.isOpening) =
      (y.stack.find? (·.isOpening)).map Token.unplaced := List.find?_map
  rcases hy : y.stack.find? (·.isOpening) with _ | t
  · rw [hy] at hfind
    simp only [finish, hfind, hy, Option.map_none]
    refine congrArg Except.ok ?_
    simp [unplaced]
  · rw [hy] at hfind
    simp only [finish, hfind, hy, Option.map_some]
    rfl

end Yard

/-! ### Reading and evaluating -/

namespace Rpn

/-- Reading tokens without positions. -/
theorem ofTokens_unplaced (ts : List Token) :
    ofTokens (ts.map Token.unplaced) =
      Yard.mapUnplaced (List.map Token.unplaced) (ofTokens ts) := by
  have hrun := Yard.run_unplaced Yard.empty ts
  rcases h : Yard.empty.run ts with e | y
  · rw [h] at hrun
    rw [ofTokens_of_run_error h, ofTokens_of_run_error hrun]
    rfl
  · rw [h] at hrun
    rw [ofTokens_of_run h, ofTokens_of_run hrun, Yard.finish_unplaced]

end Rpn

namespace Evaluation

private theorem unplaced_apply (m : Evaluation σ ε α) (s : σ) :
    m.unplaced s = ((m s).1.mapError Failure.unplaced, (m s).2) := rfl

/-- Positions are taken from a computation step by step. -/
private theorem unplaced_bind (m : Evaluation σ ε α) (k : α → Evaluation σ ε β) :
    (m >>= k).unplaced = m.unplaced >>= fun a => (k a).unplaced := by
  funext s
  rw [unplaced_apply, bind_apply, bind_apply, unplaced_apply]
  obtain ⟨_ | a, s'⟩ := m s <;> rfl

/-- Computations that agree without positions, one behind the other. -/
theorem unplaced_bind_congr {m m' : Evaluation σ ε α} {k k' : α → Evaluation σ ε β}
    (hm : m.unplaced = m'.unplaced) (hk : ∀ a, (k a).unplaced = (k' a).unplaced) :
    (m >>= k).unplaced = (m' >>= k').unplaced := by
  rw [unplaced_bind, unplaced_bind, hm, funext hk]

/-- What goes on behind a text that is read, or fails with it. -/
theorem unplaced_ofParse_bind {r : Except ParseError α} {f : α → β} {γ : Type}
    {k : α → Evaluation σ ε γ} {k' : β → Evaluation σ ε γ}
    (hk : ∀ a, (k' (f a)).unplaced = (k a).unplaced) :
    (ofParse (Yard.mapUnplaced f r) >>= k').unplaced = (ofParse r >>= k).unplaced := by
  obtain e | a := r
  · obtain _ | _ | _ | _ := e <;> rfl
  · exact hk a

end Evaluation

namespace Rpn

variable (lookup : Lookup σ ε)

/-- Evaluation does not look at the positions of tokens. -/
private theorem push_unplaced (stack : List Value) (t : Token) :
    (push lookup stack t.unplaced).unplaced = (push lookup stack t).unplaced := by
  obtain ⟨text, kind, position⟩ := t
  obtain _ | _ | _ | _ | _ | _ := kind <;> rfl

private theorem foldlM_push_unplaced (ts : List Token) (stack : List Value) :
    ((ts.map Token.unplaced).foldlM (push lookup) stack).unplaced =
      (ts.foldlM (push lookup) stack).unplaced := by
  induction ts generalizing stack with
  | nil => rfl
  | cons t ts ih =>
    rw [List.map_cons, List.foldlM_cons, List.foldlM_cons]
    exact Evaluation.unplaced_bind_congr (push_unplaced lookup stack t) ih

/-- The value of a formula that is given as its tokens. -/
def value (ts : List Token) : Evaluation σ ε Value := do
  evaluate lookup (← .ofParse (ofTokens ts))

/-- **Positions are for errors alone**: tokens have a value, or an error, up to their
positions. -/
theorem value_unplaced (ts : List Token) :
    (value lookup (ts.map Token.unplaced)).unplaced = (value lookup ts).unplaced := by
  rw [value, value, ofTokens_unplaced]
  refine Evaluation.unplaced_ofParse_bind fun post => ?_
  exact Evaluation.unplaced_bind_congr (foldlM_push_unplaced lookup post []) fun _ => rfl

/-- Tokens that are the same up to their positions have the same value up to positions. -/
theorem value_congr {ts us : List Token}
    (h : ts.map Token.unplaced = us.map Token.unplaced) :
    (value lookup ts).unplaced = (value lookup us).unplaced := by
  rw [← value_unplaced, h, value_unplaced]

end Rpn

end Formula
