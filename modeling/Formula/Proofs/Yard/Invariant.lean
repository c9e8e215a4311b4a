import Formula.Proofs.Yard.Isolation
import Formula.Proofs.Yard.Places
import Formula.Proofs.Yard.Precedence
import Mathlib.Data.List.Chain
import Mathlib.Data.List.TakeWhile

/-!
# What holds of the yard at every token

The stack of the yard and its frames are two records of the same groups. `Yard.Invariant` says what
they have to do with the tokens that have come in, whatever these are: the open parentheses on the
stack are those whose groups are open (`Token.openPlaces`), each of them has a frame, and the frame
has noted what has been met in its group. Operators that wait on top of each other do so because
the lower one does not give way to the upper one (`Yard.RestsOn`); where a group is closed, the
stack is left as it was in front of the group or in front of the function that called it.

A step keeps the invariant (`Yard.Invariant.of_step`), and so does a run
(`Yard.invariant_of_run`). Of the two conditions that a comma and a closing parenthesis are refused
for, the one therefore does not hold without the other.
-/

namespace Formula

namespace Token

/-- The open groups behind a token at a place, by the places of their parentheses. -/
def openBehind (places : List Nat) (t : Token) (place : Nat) : List Nat :=
  match t.kind with
  | .parenthesis .opening => place :: places
  | .parenthesis .closing => places.tail
  | _ => places

/-- The open groups behind the tokens, by the places of their parentheses; the innermost is the
first. -/
def openPlaces (ts : List Token) : List Nat :=
  ts.zipIdx.foldl (fun places (t, place) => openBehind places t place) []

/-- The places of the open parentheses go on token by token. -/
private theorem openPlaces_concat (ts : List Token) (t : Token) :
    openPlaces (ts ++ [t]) = openBehind (openPlaces ts) t ts.length := by
  rw [openPlaces, List.zipIdx_append, List.foldl_append, ← openPlaces]
  simp

variable {t : Token}

private theorem openBehind_of_ne (ht : ∀ side, t.kind ≠ .parenthesis side) (places : List Nat)
    (place : Nat) : openBehind places t place = places := by
  cases hk : t.kind with
  | value | symbol | operator b | function b | comma => rw [openBehind, hk]
  | parenthesis side => exact absurd hk (ht side)

private theorem openBehind_opening (ht : t.isOpening = true) (places : List Nat) (place : Nat) :
    openBehind places t place = place :: places := by
  rw [openBehind, isOpening_iff.mp ht]

private theorem openBehind_closing (ht : t.kind = .parenthesis .closing) (places : List Nat)
    (place : Nat) : openBehind places t place = places.tail := by
  rw [openBehind, ht]

end Token

namespace Yard

open Token (openPlaces openPlaces_concat)

variable {y y' : Yard} {ts : List Token} {t upper lower : Token}

/-! ### Operators on top of each other -/

/-- An operator that waits on top of another one binds tighter, or as tightly while it is grouped
from the right. -/
def RestsOn (upper lower : Token) : Prop :=
  ∀ a b : Binding, upper.kind = .operator a → lower.kind = .operator b →
    a.precedence < b.precedence ∨ a.precedence = b.precedence ∧ a.rightAssociative = true

/-- A token may rest on one that it does not send away. -/
private theorem restsOn_of_yields_eq_false (h : yields upper lower = false) :
    RestsOn upper lower := by
  intro a b ha hb
  have hgives : ¬b.GivesWay a := fun hba => by
    rw [(yields_iff hb ha).mpr hba] at h
    cases h
  obtain hlt | heq | hgt := Nat.lt_trichotomy a.precedence b.precedence
  · exact .inl hlt
  · refine .inr ⟨heq, ?_⟩
    rw [← Bool.not_eq_false]
    exact fun hleft => hgives (.inr ⟨heq.symm, hleft⟩)
  · exact absurd (.inl hgt) hgives

private theorem restsOn_of_ne (h : ∀ b, upper.kind ≠ .operator b) : RestsOn upper lower :=
  fun a _ ha => absurd ha (h a)

/-- What waits below the tokens that make way for an operator does not make way for it. -/
theorem isChain_operator (h : y.stack.IsChain RestsOn) : (y.operator t).stack.IsChain RestsOn := by
  rw [operator, noteContent_eq, hold, sendWhile]
  refine (h.suffix (List.dropWhile_suffix _)).cons fun w hw => restsOn_of_yields_eq_false ?_
  have hhead := List.head?_dropWhile_not (yields t) y.stack
  rwa [Option.mem_def.mp hw] at hhead

/-- Applying a function takes at most the function from the stack. -/
private theorem stack_applyFunction_suffix (y : Yard) (n : Nat) :
    (y.applyFunction n).stack <:+ y.stack := by
  obtain ⟨_ | ⟨top, stack⟩, frames, output⟩ := y
  · exact List.suffix_rfl
  · cases htop : top.isFunction with
    | true =>
      rw [applyFunction_of_isFunction htop]
      exact List.suffix_cons top stack
    | false =>
      have hkept : (applyFunction ⟨top :: stack, frames, output⟩ n).stack = top :: stack := by
        rw [applyFunction_of_head (by simpa using htop)]
      exact ⟨[], hkept⟩

/-- A step puts at most one token on top of the stack, and an operator only where it rests. -/
theorem isChain_of_step (hy : y.Framed) (h : y.stack.IsChain RestsOn) (hstep : y.step t = .ok y') :
    y'.stack.IsChain RestsOn := by
  obtain ⟨-, rfl⟩ | ⟨-, rfl⟩ | ⟨ht, rfl⟩ | ⟨ht, rfl⟩ | ⟨-, hstep⟩ | ⟨-, hstep⟩ := step_cases hstep
  · rw [noteContent_eq]
    exact h
  · exact isChain_operator h
  · obtain ⟨b, hb⟩ := Token.isFunction_iff.mp ht
    rw [noteContent_eq]
    exact h.cons fun w _ => restsOn_of_ne (by simp [hb])
  · rw [opening_eq]
    exact h.cons fun w _ => restsOn_of_ne (by simp [Token.isOpening_iff.mp ht])
  · obtain ⟨inner, o, outer, f, fs, hstack, -, -, -, rfl⟩ := exists_of_closing hy hstep
    rw [hstack] at h
    exact h.suffix ((stack_applyFunction_suffix _ _).trans ⟨inner ++ [o], by simp⟩)
  · obtain ⟨inner, o, outer, f, fs, hstack, -, -, -, rfl⟩ := exists_of_comma hy hstep
    rw [hstack] at h
    exact h.right_of_append

/-- In a row of operators that wait on top of each other, none binds looser than one below it. -/
theorem pairwise_of_isChain {row : List Token} (h : row.IsChain RestsOn)
    (hrow : ∀ w ∈ row, ∃ b, w.kind = .operator b) :
    row.Pairwise fun upper lower => ∀ a b, upper.kind = .operator a → lower.kind = .operator b →
      a.precedence ≤ b.precedence := by
  let precedence (w : Token) : Nat := (w.binding?.map (·.precedence)).getD 0
  have heq : ∀ {w : Token} {b : Binding}, w.kind = .operator b → precedence w = b.precedence :=
    fun hb => by simp [precedence, Token.binding?, hb]
  have hchain : row.IsChain fun upper lower => precedence upper ≤ precedence lower := by
    refine h.imp_of_mem_imp fun upper lower hupper hlower hrests => ?_
    obtain ⟨a, ha⟩ := hrow upper hupper
    obtain ⟨b, hb⟩ := hrow lower hlower
    rw [heq ha, heq hb]
    exact (hrests a b ha hb).elim Nat.le_of_lt fun h => Nat.le_of_eq h.1
  have hpairwise : (row.map precedence).Pairwise (· ≤ ·) :=
    ((List.isChain_map precedence).mpr hchain).pairwise
  refine (List.pairwise_map.mp hpairwise).imp fun hle a b ha hb => ?_
  rwa [heq ha, heq hb] at hle

/-! ### Groups -/

/-- A step does to the open parentheses what the token does. -/
theorem nest_of_step (hy : y.Framed) (hstep : y.step t = .ok y') :
    t.nest y.openings = .ok y'.openings := by
  cases hnest : t.nest y.openings with
  | error e =>
    rw [step_of_nest_error hy hnest] at hstep
    cases hstep
  | ok os =>
    obtain ⟨y'', hstep', -, rfl⟩ := step_of_nest_ok hy hnest
    rw [hstep'] at hstep
    rw [Except.ok.inj hstep]

/-- The frames note a token in the groups that are open behind it. -/
theorem framesNote_of_step (hy : y.Framed) (h : FramesNote ts 0 (openPlaces ts) y.frames)
    (hstep : y.step t = .ok y') :
    FramesNote (ts ++ [t]) 0 (openPlaces (ts ++ [t])) y'.frames := by
  rw [openPlaces_concat]
  obtain ⟨ht, rfl⟩ | ⟨⟨b, ht⟩, rfl⟩ | ⟨ht, rfl⟩ | ⟨ht, rfl⟩ | ⟨ht, hstep⟩ | ⟨ht, hstep⟩ :=
    step_cases hstep
  · have hremains := Token.remains_of_isOperand (Token.isOperand_iff.mpr ht)
    rw [Token.openBehind_of_ne (Token.kind_ne_of_remains hremains).1, noteContent_eq]
    exact h.content hremains
  · have hremains : t.remains = true := by rw [Token.remains, ht]
    rw [Token.openBehind_of_ne (Token.kind_ne_of_remains hremains).1, operator, noteContent_eq]
    exact h.content hremains
  · have hremains := Token.remains_of_isFunction ht
    rw [Token.openBehind_of_ne (Token.kind_ne_of_remains hremains).1, noteContent_eq]
    exact h.content hremains
  · rw [Token.openBehind_opening ht, opening_eq]
    exact h.opening ht
  · obtain ⟨inner, o, outer, f, fs, -, -, -, hf, rfl⟩ := exists_of_closing hy hstep
    rw [Token.openBehind_closing ht, frames_applyFunction]
    rw [hf] at h
    cases hplaces : openPlaces ts with
    | nil => rw [hplaces] at h; cases h
    | cons place places =>
      rw [hplaces] at h
      exact (h.closing ht).2
  · obtain ⟨inner, o, outer, f, fs, -, -, -, hf, rfl⟩ := exists_of_comma hy hstep
    rw [Token.openBehind_of_ne (by simp [ht])]
    rw [hf] at h
    cases hplaces : openPlaces ts with
    | nil => rw [hplaces] at h; cases h
    | cons place places =>
      rw [hplaces] at h
      exact h.comma ht

/-! ### The invariant -/

/-- What holds of the yard behind the tokens. -/
structure Invariant (ts : List Token) (y : Yard) : Prop where
  /-- There is a frame for each open parenthesis on the stack. -/
  framed : y.frames.length = (y.stack.filter (·.isOpening)).length
  /-- These parentheses are those of the open groups. -/
  openings : (y.stack.filter (·.isOpening)).map some = (openPlaces ts).map (ts[·]?)
  /-- The frames have noted what has been met in the open groups. -/
  frames : FramesNote ts 0 (openPlaces ts) y.frames
  /-- Operators that wait on top of each other are in order. -/
  stack : y.stack.IsChain RestsOn

namespace Invariant

theorem empty : Invariant [] .empty := ⟨rfl, rfl, .nil, .nil⟩

/-- The parentheses of the open groups are where they have been. -/
theorem map_getElem?_concat (h : Invariant ts y) (t : Token) :
    (openPlaces ts).map ((ts ++ [t])[·]?) = (y.stack.filter (·.isOpening)).map some := by
  rw [h.openings]
  refine List.map_congr_left fun place hplace => List.getElem?_append_left ?_
  have hmem : ts[place]? ∈ (y.stack.filter (·.isOpening)).map some :=
    h.openings ▸ List.mem_map_of_mem hplace
  obtain ⟨o, -, ho⟩ := List.mem_map.mp hmem
  exact (List.getElem?_eq_some_iff.mp ho.symm).1

/-- A step keeps the open parentheses those of the tokens that came in. -/
private theorem openings_of_step (h : Invariant ts y) (hstep : y.step t = .ok y') :
    y'.openings.map some = (openPlaces (ts ++ [t])).map ((ts ++ [t])[·]?) := by
  have hplaces := h.map_getElem?_concat t
  rw [openPlaces_concat]
  obtain ⟨hk, hos⟩ | ⟨hk, o, hos⟩ | ⟨hk, hos, -⟩ | ⟨hside, -, hos⟩ :=
    Token.nest_cases (nest_of_step h.framed hstep)
  · rw [Token.openBehind_opening (Token.isOpening_iff.mpr hk), List.map_cons, hplaces, hos,
      List.getElem?_concat_length]
    rfl
  · rw [Token.openBehind_closing hk, List.map_tail, hplaces, ← Yard.openings, hos]
    rfl
  · rw [Token.openBehind_of_ne (by simp [hk]), hplaces, hos]
    rfl
  · rw [Token.openBehind_of_ne hside, hplaces, hos]
    rfl

/-- **A step keeps the invariant.** -/
theorem of_step (h : Invariant ts y) (hstep : y.step t = .ok y') : Invariant (ts ++ [t]) y' where
  framed := Framed.of_step h.framed hstep
  openings := h.openings_of_step hstep
  frames := framesNote_of_step h.framed h.frames hstep
  stack := isChain_of_step h.framed h.stack hstep

/-- The invariant is kept by a row of tokens. -/
private theorem of_run {done : List Token} (h : Invariant done y) (hrun : y.run ts = .ok y') :
    Invariant (done ++ ts) y' := by
  induction ts generalizing y done with
  | nil =>
    obtain rfl := Except.ok.inj hrun
    rwa [List.append_nil]
  | cons t ts ih =>
    obtain ⟨y₁, hstep, hrun⟩ := exists_step_of_run hrun
    rw [List.append_cons]
    exact ih (h.of_step hstep) hrun

end Invariant

/-- A group is open as far as the frames know if one is as far as the stack does. -/
theorem frames_eq_nil_iff (hy : y.Framed) : y.frames = [] ↔ y.sendInner.stack = [] := by
  have hopenings : y.frames = [] ↔ y.openings = [] := by
    rw [← List.length_eq_zero_iff, hy, List.length_eq_zero_iff]
  rw [hopenings, openings, List.filter_eq_nil_iff]
  simp [sendInner, sendWhile, List.dropWhile_eq_nil_iff]

/-- **The stack and the frames of the yard agree at every token**, with each other and with the
tokens that have come in, whatever these are. Between open parentheses and functions the operators
are in order, with the tightest on top. A comma that finds a frame finds an open parenthesis on the
stack, too, and a closing parenthesis that finds one on the stack finds its frame. -/
theorem invariant_of_run (h : Yard.empty.run ts = .ok y) :
    Invariant ts y ∧
      (∀ row, row <:+: y.stack → (∀ w ∈ row, ∃ b, w.kind = .operator b) →
        row.Pairwise fun upper lower => ∀ a b, upper.kind = .operator a →
          lower.kind = .operator b → a.precedence ≤ b.precedence) ∧
      (y.frames = [] ↔ y.sendInner.stack = []) := by
  have hinvariant : Invariant ts y := Invariant.empty.of_run h
  refine ⟨hinvariant, ?_, frames_eq_nil_iff hinvariant.framed⟩
  rintro row ⟨above, below, hrow⟩
  have hchain := hinvariant.stack
  rw [← hrow] at hchain
  exact pairwise_of_isChain hchain.left_of_append.right_of_append

/-- Behind `max(x,1+2**-(y` two groups are open, the outer one with a comma, and three operators
wait on top of each other between them. -/
theorem invariant_sum_power_sign :
    let max : Token := ⟨"max", .function ⟨.max, 0, .variadic, false⟩, 0⟩
    let outer : Token := ⟨"(", .parenthesis .opening, 3⟩
    let plus : Token := ⟨"+", .operator ⟨.plus, 6, .fixed 2, false⟩, 7⟩
    let power : Token := ⟨"**", .operator ⟨.power, 5, .fixed 2, true⟩, 9⟩
    let minus : Token := ⟨"-", .operator ⟨.minus, 3, .fixed 1, true⟩, 11⟩
    let inner : Token := ⟨"(", .parenthesis .opening, 12⟩
    let x : Token := ⟨"x", .symbol, 4⟩
    let one : Token := ⟨"1", .value, 6⟩
    let two : Token := ⟨"2", .value, 8⟩
    let y : Token := ⟨"y", .symbol, 13⟩
    let ts := [max, outer, x, ⟨",", .comma, 5⟩, one, plus, two, power, minus, inner, y]
    let yard : Yard := ⟨[inner, minus, power, plus, outer, max], [⟨0, true⟩, ⟨1, true⟩],
      [y, two, one, x]⟩
    empty.run ts = .ok yard ∧ Invariant ts yard ∧ openPlaces ts = [9, 1] ∧
      yard.sendInner.stack ≠ [] := by
  intro max outer plus power minus inner x one two y ts yard
  have hrun : empty.run ts = .ok yard := by rfl
  obtain ⟨hinvariant, -, hframes⟩ := invariant_of_run hrun
  exact ⟨hrun, hinvariant, rfl, fun hstack => nomatch hframes.mpr hstack⟩

end Yard

end Formula
