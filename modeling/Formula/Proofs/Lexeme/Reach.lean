import Formula.Token.Lexeme

/-!
# How far the rules for words reach

The rules for numbers and names read a text character by character, with a state that says
which characters may come next: `Lexeme.reach` is how far such a reading gets
(`Lexeme.numberLength_eq_reach`, `Lexeme.nameLength_eq_reach`). From this come the two facts on
which the cutting of a text rests:

* a rule that reaches no further than a part of the text reaches as far in this part alone
  (`Lexeme.Rule.length_append_of_le`);
* whether some rule reaches across the end of a word is settled by the first character behind
  it (`Lexeme.apart_cons_iff`).
-/

namespace Formula.Lexeme

/-! ### Reading with a state -/

section Reach

variable {σ : Type} (next : σ → Char → Option σ)

/-- How many characters are read from a state, until one comes that may not. -/
def reach : σ → List Char → Nat
  | _, [] => 0
  | s, c :: cs =>
    match next s c with
    | some s' => reach s' cs + 1
    | none => 0

variable {next}

theorem reach_cons_of_some {s s' : σ} {c : Char} (h : next s c = some s') (cs : List Char) :
    reach next s (c :: cs) = reach next s' cs + 1 := by
  rw [reach, h]

theorem reach_cons_of_none {s : σ} {c : Char} (h : next s c = none) (cs : List Char) :
    reach next s (c :: cs) = 0 := by
  rw [reach, h]

/-- Reading that ends within a part of the text does not see what is behind it. -/
theorem reach_append_of_le {w u : List Char} {s : σ}
    (h : reach next s (w ++ u) ≤ w.length) : reach next s (w ++ u) = reach next s w := by
  induction w generalizing s with
  | nil => exact Nat.le_zero.mp h
  | cons c w ih =>
    rw [List.cons_append] at h ⊢
    rcases hs : next s c with _ | s'
    · rw [reach_cons_of_none hs, reach_cons_of_none hs]
    · rw [reach_cons_of_some hs, List.length_cons] at h
      rw [reach_cons_of_some hs, reach_cons_of_some hs, ih (Nat.le_of_succ_le_succ h)]

/-- Reading that goes on behind a part of the text takes the next character. -/
theorem lt_reach_append_singleton {w u : List Char} {d : Char} {s : σ}
    (h : w.length < reach next s (w ++ d :: u)) : w.length < reach next s (w ++ [d]) := by
  induction w generalizing s with
  | nil =>
    rw [List.nil_append] at h ⊢
    rcases hs : next s d with _ | s'
    · rw [reach_cons_of_none hs] at h
      exact absurd h (Nat.not_lt_zero _)
    · rw [reach_cons_of_some hs]
      exact Nat.succ_pos _
  | cons c w ih =>
    rw [List.cons_append] at h ⊢
    rcases hs : next s c with _ | s'
    · rw [reach_cons_of_none hs] at h
      exact absurd h (Nat.not_lt_zero _)
    · rw [reach_cons_of_some hs] at h ⊢
      exact Nat.succ_lt_succ (ih (Nat.lt_of_succ_lt_succ h))

/-- A character that no state takes is not read. -/
theorem reach_append_cons_le {w u : List Char} {d : Char} {s : σ}
    (hd : ∀ s, next s d = none) : reach next s (w ++ d :: u) ≤ w.length := by
  induction w generalizing s with
  | nil => rw [List.nil_append, reach_cons_of_none (hd s)]; exact Nat.zero_le _
  | cons c w ih =>
    rw [List.cons_append]
    rcases hs : next s c with _ | s'
    · rw [reach_cons_of_none hs]
      exact Nat.zero_le _
    · rw [reach_cons_of_some hs]
      exact Nat.succ_le_succ ih

/-- A character that is taken only behind certain others is not read behind a different one. -/
theorem reach_append_cons_le_of_getLast {w u : List Char} {d : Char} {p : Char → Prop} {s : σ}
    (hd : ∀ s s' c, next s c = some s' → ¬p c → next s' d = none)
    (hw : ∀ c ∈ w.getLast?, ¬p c) (hne : w ≠ []) :
    reach next s (w ++ d :: u) ≤ w.length := by
  induction w generalizing s with
  | nil => exact absurd rfl hne
  | cons c w ih =>
    rw [List.cons_append]
    rcases hs : next s c with _ | s'
    · rw [reach_cons_of_none hs]
      exact Nat.zero_le _
    · rw [reach_cons_of_some hs]
      refine Nat.succ_le_succ ?_
      obtain _ | ⟨c', w⟩ := w
      · rw [List.nil_append, reach_cons_of_none (hd s s' c hs (hw c rfl))]
        exact Nat.zero_le _
      · exact ih (by simpa using hw) (List.cons_ne_nil _ _)

/-- Every character of a text that is read to its end is taken by some state. -/
theorem exists_next_of_reach_eq {w : List Char} {s : σ} (h : reach next s w = w.length) :
    ∀ c ∈ w, ∃ s s', next s c = some s' := by
  induction w generalizing s with
  | nil => exact fun c hc => absurd hc List.not_mem_nil
  | cons c w ih =>
    rcases hs : next s c with _ | s'
    · rw [reach_cons_of_none hs] at h
      exact absurd h (Nat.succ_ne_zero _).symm
    · rw [reach_cons_of_some hs] at h
      intro d hd
      obtain rfl | hd := List.mem_cons.mp hd
      · exact ⟨s, s', hs⟩
      · exact ih (Nat.succ.inj h) d hd

end Reach

/-! ### Numbers -/

/-- Where in a number the reading stands. -/
inductive NumberState where
  | front
  | inside
  /-- Right behind an exponent mark, where a sign may stand. -/
  | mark

/-- What the next character of a number may be. -/
def numberNext : NumberState → Char → Option NumberState
  | .front, c => if isNumeric c then some .inside else none
  | .inside, c => if c = 'e' then some .mark else if isNumeric c then some .inside else none
  | .mark, c =>
    if c = 'e' then some .mark
    else if isNumeric c || c == '+' || c == '-' then some .inside else none

/-- Behind an exponent mark without a sign the reading is as it is elsewhere. -/
theorem reach_mark_eq {cs : List Char} (hplus : ∀ ds, cs ≠ '+' :: ds)
    (hminus : ∀ ds, cs ≠ '-' :: ds) :
    reach numberNext .mark cs = reach numberNext .inside cs := by
  obtain _ | ⟨d, ds⟩ := cs
  · rfl
  · have hd : numberNext .mark d = numberNext .inside d := by
      have hp : d ≠ '+' := fun h => hplus ds (h ▸ rfl)
      have hm : d ≠ '-' := fun h => hminus ds (h ▸ rfl)
      simp [numberNext, hp, hm]
    rw [reach, reach, hd]

/-- The automaton for numbers takes what the rule takes behind the first character. -/
theorem reach_inside_eq (cs : List Char) :
    reach numberNext .inside cs = numberTail cs := by
  fun_induction numberTail cs with
  | case1 cs ih => rw [← ih]; rfl
  | case2 cs ih => rw [← ih]; rfl
  | case3 c cs hplus hminus hc ih =>
    -- the first two cases have taken the exponent marks with a sign behind them
    by_cases he : c = 'e'
    · have hmark : numberNext .inside c = some .mark := by rw [numberNext, if_pos he]
      rw [reach_cons_of_some hmark, ← ih, reach_mark_eq (fun ds h => hplus ds he h)
        fun ds h => hminus ds he h]
    · have hinside : numberNext .inside c = some .inside := by
        rw [numberNext, if_neg he, if_pos (by simpa [he] using hc)]
      rw [reach_cons_of_some hinside, ih]
  | case4 c cs hplus hminus hc =>
    have hnone : numberNext .inside c = none := by
      have he : c ≠ 'e' := fun he => hc (by simp [he])
      rw [numberNext, if_neg he, if_neg fun h => hc (by simp [h])]
    rw [reach_cons_of_none hnone]
  | case5 => rfl

/-- The rule for numbers takes as many characters as its automaton. -/
theorem numberLength_eq_reach (cs : List Char) :
    numberLength cs = reach numberNext .front cs := by
  obtain _ | ⟨c, cs⟩ := cs
  · rfl
  · rw [numberLength, reach, numberNext]
    split
    · exact congrArg (· + 1) (reach_inside_eq cs).symm
    · rfl

/-- What stands in a number, an exponent mark being needed for a sign. -/
theorem numberNext_eq_none {d : Char} (hd : isNumeric d = false) (he : d ≠ 'e')
    (hp : d ≠ '+') (hm : d ≠ '-') (s : NumberState) : numberNext s d = none := by
  obtain _ | _ | _ := s <;> simp [numberNext, hd, he, hp, hm]

/-- A sign goes on with a number only right behind an exponent mark. -/
theorem numberNext_sign_eq_none {s s' : NumberState} {c d : Char} (h : numberNext s c = some s')
    (hc : c ≠ 'e') (hd : isNumeric d = false) (he : d ≠ 'e') : numberNext s' d = none := by
  -- only an exponent mark leads behind an exponent mark
  obtain rfl : s' = .inside := by
    obtain _ | _ | _ := s <;> simp [numberNext, hc] at h <;> exact h.2.symm
  simp [numberNext, hd, he]

/-! ### Names -/

/-- What the next character of a name may be; the state says whether a first one was read. -/
def nameNext : Bool → Char → Option Bool
  | false, c => if isNameStart c then some true else none
  | true, c => if isNamePart c then some true else none

/-- Behind its first character a name goes on as long as there are characters of names. -/
private theorem reach_nameNext_true (cs : List Char) :
    reach nameNext true cs = (cs.takeWhile isNamePart).length := by
  induction cs with
  | nil => rfl
  | cons c cs ih =>
    rw [reach, nameNext, List.takeWhile_cons]
    split <;> simp_all

theorem nameLength_eq_reach (cs : List Char) : nameLength cs = reach nameNext false cs := by
  obtain _ | ⟨c, cs⟩ := cs
  · rfl
  · rw [nameLength, reach, nameNext]
    split
    · exact congrArg (· + 1) (reach_nameNext_true cs).symm
    · rfl

theorem isNamePart_of_isNameStart {c : Char} (h : isNameStart c = true) :
    isNamePart c = true := by
  simp only [isNameStart, Bool.or_eq_true] at h
  obtain h | h := h <;> simp [isNamePart, Char.isAlphanum, h]

theorem nameNext_eq_none {d : Char} (hd : isNamePart d = false) (s : Bool) :
    nameNext s d = none := by
  have hs : isNameStart d = false :=
    Bool.eq_false_iff.mpr fun h => Bool.eq_false_iff.mp hd (isNamePart_of_isNameStart h)
  obtain _ | _ := s <;> simp [nameNext, hd, hs]

end Formula.Lexeme
