import Formula.Proofs.Yard.Groups

/-!
# The arguments that are counted

What stands between two matching parentheses has a number of arguments: none if nothing does,
and otherwise one more than there are commas that belong to no group inside
(`Token.argumentCount?`).

The yard does not see the inside of a group as a whole. It keeps a frame for each open
parenthesis, and each token that comes in is noted in the innermost of them. So a frame holds
what has been met behind its parenthesis (`ArgumentFrame.Notes`), for those further out because
the groups inside them had to be opened and do not change their commas (`Yard.FramesNote`).
-/

namespace Formula

/-- What has been met behind an open parenthesis. -/
structure Tally where
  /-- How many groups are open inside. -/
  depth : Nat
  /-- How many commas there were in none of the groups inside. -/
  commas : Nat
  deriving DecidableEq

/-- The tally with another token; there is none behind the parenthesis that closes the group. -/
def Tally.next (n : Tally) (t : Token) : Option Tally :=
  match t.kind, n.depth with
  | .parenthesis .opening, d => some { n with depth := d + 1 }
  | .parenthesis .closing, d + 1 => some { n with depth := d }
  | .parenthesis .closing, 0 => none
  | .comma, 0 => some { n with commas := n.commas + 1 }
  | _, _ => some n

namespace Token

/-- The tally of all tokens behind an open parenthesis. -/
def tally (inner : List Token) : Option Tally := inner.foldlM Tally.next ⟨0, 0⟩

/-- The number of arguments in a group with these tokens inside; nothing if the tokens are not
the inside of a group. -/
def argumentCount? (inner : List Token) : Option Nat :=
  match tally inner with
  | some ⟨0, commas⟩ => some (if inner.isEmpty then 0 else commas + 1)
  | _ => none

/-- The tally goes on token by token. -/
private theorem tally_concat (inner : List Token) (t : Token) :
    tally (inner ++ [t]) = (tally inner).bind (·.next t) := by
  rw [tally, List.foldlM_append, ← tally]
  cases tally inner with
  | none => rfl
  | some n => simp

/-- The token is no parenthesis, and no comma. -/
def remains (t : Token) : Bool :=
  match t.kind with
  | .value | .symbol | .operator _ | .function _ => true
  | .parenthesis _ | .comma => false

theorem kind_ne_of_remains {t : Token} (ht : t.remains = true) :
    (∀ side, t.kind ≠ .parenthesis side) ∧ t.kind ≠ .comma :=
  ⟨fun side hk => by simp [remains, hk] at ht, fun hk => by simp [remains, hk] at ht⟩

end Token

variable {t : Token} {d : Nat}

namespace Tally

private theorem next_of_remains (ht : t.remains = true) (n : Tally) : n.next t = some n := by
  cases hk : t.kind with
  | value | symbol | operator b | function b => rw [next, hk]
  | parenthesis side | comma => simp [Token.remains, hk] at ht

private theorem next_opening (ht : t.isOpening = true) (n : Tally) :
    n.next t = some ⟨n.depth + 1, n.commas⟩ := by
  rw [next, Token.isOpening_iff.mp ht]

private theorem next_closing (ht : t.kind = .parenthesis .closing) (d c : Nat) :
    next ⟨d + 1, c⟩ t = some ⟨d, c⟩ := by
  rw [next, ht]

private theorem next_comma (ht : t.kind = .comma) (c : Nat) : next ⟨0, c⟩ t = some ⟨0, c + 1⟩ := by
  simp only [next, ht]

/-- A comma inside a group inside is none of the commas. -/
theorem next_comma_succ (ht : t.kind = .comma) (d c : Nat) :
    next ⟨d + 1, c⟩ t = some ⟨d + 1, c⟩ := by
  simp only [next, ht]

end Tally

/-! ### One frame -/

namespace ArgumentFrame

variable {f : ArgumentFrame} {inner : List Token}

/-- The frame holds what has been met behind its parenthesis, where `depth` groups are open
inside. -/
structure Notes (f : ArgumentFrame) (depth : Nat) (inner : List Token) : Prop where
  tally : Token.tally inner = some ⟨depth, f.commas⟩
  hasContent : f.hasContent = !inner.isEmpty

private theorem notes_empty : empty.Notes 0 [] := ⟨rfl, rfl⟩

/-- Another token is noted. -/
theorem Notes.concat {d' c : Nat} (h : f.Notes d inner)
    (hnext : Tally.next ⟨d, f.commas⟩ t = some ⟨d', c⟩) :
    Notes ⟨c, true⟩ d' (inner ++ [t]) where
  tally := by rw [Token.tally_concat, h.tally, Option.bind_some, hnext]
  hasContent := by simp

/-- Where a group is open inside, something has been met. -/
theorem Notes.hasContent_eq_true (h : f.Notes (d + 1) inner) : f.hasContent = true := by
  rw [h.hasContent]
  cases inner with
  | nil => exact absurd h.tally (by simp [Token.tally])
  | cons t ts => rfl

/-- A frame whose parenthesis may be closed has the number of arguments. -/
theorem Notes.argumentCount_eq (h : f.Notes 0 inner) :
    Token.argumentCount? inner = some f.count := by
  rw [Token.argumentCount?, h.tally, count, h.hasContent]
  cases inner.isEmpty <;> rfl

end ArgumentFrame

/-! ### The frames of a yard -/

namespace Yard

open ArgumentFrame (Notes)

variable {done : List Token} {places : List Nat} {frames : List ArgumentFrame}

/-- The frames hold what has been met behind the open parentheses, which have the given places
among the tokens that have come in; the innermost is the first, and `depth` groups are open
inside of it. -/
inductive FramesNote (done : List Token) : Nat → List Nat → List ArgumentFrame → Prop where
  | nil {depth : Nat} : FramesNote done depth [] []
  | cons {depth place : Nat} {places : List Nat} {f : ArgumentFrame}
      {frames : List ArgumentFrame} (hplace : place < done.length)
      (hf : f.Notes depth (done.drop (place + 1))) (h : FramesNote done (depth + 1) places frames) :
      FramesNote done depth (place :: places) (f :: frames)

/-- There is a frame for each open parenthesis. -/
theorem FramesNote.length_eq (h : FramesNote done d places frames) :
    frames.length = places.length := by
  induction h with
  | nil => rfl
  | cons _ _ _ ih => rw [List.length_cons, List.length_cons, ih]

/-- An open parenthesis is among the tokens that have come in. -/
theorem FramesNote.place_lt {place : Nat} (h : FramesNote done d (place :: places) frames) :
    place < done.length := by
  cases h with
  | cons hplace => exact hplace

private theorem drop_concat {place : Nat} (hplace : place < done.length) (t : Token) :
    (done ++ [t]).drop (place + 1) = done.drop (place + 1) ++ [t] :=
  List.drop_append_of_le_length hplace

/-- The frame of an open parenthesis with another token behind it. -/
theorem FramesNote.cons_concat {place d' c : Nat} {f : ArgumentFrame}
    (hplace : place < done.length) (hf : f.Notes d (done.drop (place + 1)))
    (hnext : Tally.next ⟨d, f.commas⟩ t = some ⟨d', c⟩)
    (h : FramesNote (done ++ [t]) (d' + 1) places frames) :
    FramesNote (done ++ [t]) d' (place :: places) (⟨c, true⟩ :: frames) := by
  refine .cons (by rw [List.length_append]; omega) ?_ h
  rw [drop_concat hplace]
  exact hf.concat hnext

/-- The frames with a group inside keep what they hold, whatever comes in there. -/
theorem FramesNote.concat (h : FramesNote done (d + 1) places frames) (d' : Nat)
    (hnext : ∀ m c, Tally.next ⟨m + d + 1, c⟩ t = some ⟨m + d', c⟩) :
    FramesNote (done ++ [t]) d' places frames := by
  generalize hd : d + 1 = depth at h
  induction h generalizing d d' with
  | nil => exact .nil
  | @cons depth place places f frames hplace hf _ ih =>
    subst hd
    -- one more group is open inside of the next parenthesis
    have hrest := ih (d' + 1) (fun m c => by
      have hm := hnext (m + 1) c
      rwa [Nat.add_right_comm m 1 d, Nat.add_right_comm m 1 d'] at hm) rfl
    have hcontent : f = ⟨f.commas, true⟩ := by rw [← hf.hasContent_eq_true]
    rw [hcontent]
    refine cons_concat hplace hf ?_ hrest
    simpa using hnext 0 f.commas

/-- A token that is neither a parenthesis nor a comma is content of the innermost group. -/
theorem FramesNote.content (h : FramesNote done 0 places frames) (ht : t.remains = true) :
    FramesNote (done ++ [t]) 0 places (frames.modifyHead .content) := by
  cases h with
  | nil => exact .nil
  | cons hplace hf h =>
    have hrest := h.concat 1 fun m c => Tally.next_of_remains ht ⟨m + 1, c⟩
    exact hrest.cons_concat hplace hf (Tally.next_of_remains ht _)

/-- So is a group, which has a frame of its own. -/
theorem FramesNote.opening (h : FramesNote done 0 places frames) (ht : t.isOpening = true) :
    FramesNote (done ++ [t]) 0 (done.length :: places) (.empty :: frames.modifyHead .content) := by
  have hfresh : ArgumentFrame.empty.Notes 0 ((done ++ [t]).drop (done.length + 1)) := by
    rw [List.drop_of_length_le (by simp)]
    exact ArgumentFrame.notes_empty
  refine .cons (by simp) hfresh ?_
  cases h with
  | nil => exact .nil
  | cons hplace hf h =>
    have hrest := h.concat 2 fun m c => Tally.next_opening ht ⟨m + 1, c⟩
    exact hrest.cons_concat hplace hf (Tally.next_opening ht _)

/-- A comma is one of those of the innermost group. -/
theorem FramesNote.comma {place : Nat} {f : ArgumentFrame}
    (h : FramesNote done 0 (place :: places) (f :: frames)) (ht : t.kind = .comma) :
    FramesNote (done ++ [t]) 0 (place :: places) (f.comma :: frames) := by
  cases h with
  | cons hplace hf h =>
    have hrest := h.concat 1 fun m c => Tally.next_comma_succ ht m c
    exact hrest.cons_concat hplace hf (Tally.next_comma ht _)

/-- The frame of a parenthesis that is closed has the number of arguments. -/
theorem FramesNote.closing {place : Nat} {f : ArgumentFrame}
    (h : FramesNote done 0 (place :: places) (f :: frames))
    (ht : t.kind = .parenthesis .closing) :
    Token.argumentCount? (done.drop (place + 1)) = some f.count ∧
      FramesNote (done ++ [t]) 0 places frames := by
  cases h with
  | cons hplace hf h =>
    exact ⟨hf.argumentCount_eq, h.concat 0 fun m c => Tally.next_closing ht m c⟩

end Yard

end Formula
