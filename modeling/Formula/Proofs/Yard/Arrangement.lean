import Formula.Proofs.Rpn.Failures
import Formula.Proofs.Yard.Isolation
import Formula.Proofs.Yard.Places
import Mathlib.Data.List.Sort

/-!
# Nothing is lost in the yard

The tokens of a formula come out of the yard in another order, without the parentheses and
commas, and with the functions that were called knowing the number of their arguments.
`Rpn.Arrangement` says what this order has to do with that of the formula.
-/

namespace Formula

namespace Rpn

/-- The tokens of a formula in an order of evaluation, each with its place in the formula. -/
structure Arrangement (ts : List Token) (placed : List Placed) : Prop where
  /-- Each token that is no parenthesis and no comma is there once. -/
  perm : (placed.map (·.place)).Perm (ts.findIdxs Token.remains)
  settled : ∀ p ∈ placed, ∃ t, Settles ts p.place t p.token
  /-- In front of an operand there are only tokens that are so in the formula: the operands keep
  their order, and operators and functions stay behind the operands in front of them. -/
  ordered : placed.Pairwise fun p q => q.token.isOperand = true → p.place < q.place

end Rpn

namespace Yard

/-- The yard behind the tokens that have come in, with the places of the tokens in it. -/
structure Tracks (y : Yard) (ts done : List Token) (waiting sent : List Placed) : Prop where
  places : Places ts done waiting sent
  stack : y.stack = waiting.map (·.token)
  output : y.output = sent.map (·.token)
  frames : FramesNote done 0 ((waiting.filter (·.token.isOpening)).map (·.place)) y.frames

namespace Tracks

variable {y y' : Yard} {ts done : List Token} {waiting sent : List Placed} {t : Token}

theorem empty (ts : List Token) : Tracks .empty ts [] [] [] := ⟨.empty ts, rfl, rfl, .nil⟩

private theorem framed (h : Tracks y ts done waiting sent) : y.Framed := by
  rw [Framed, h.frames.length_eq, openings, h.stack, List.filter_map, List.length_map,
    List.length_map]
  rfl

private theorem operand (h : Tracks y ts done waiting sent) (hstart : done ++ [t] <+: ts)
    (ht : t.isOperand = true) :
    Tracks (y.noteContent.send t) ts (done ++ [t]) waiting (⟨done.length, t⟩ :: sent) := by
  rw [noteContent_eq]
  refine ⟨h.places.receive hstart ht, h.stack, congrArg _ h.output, ?_⟩
  exact h.frames.content (Token.remains_of_isOperand ht)

theorem function (h : Tracks y ts done waiting sent) (hstart : done ++ [t] <+: ts)
    (ht : t.isFunction = true) :
    Tracks (y.noteContent.hold t) ts (done ++ [t]) (⟨done.length, t⟩ :: waiting) sent := by
  have hremains : t.remains = true := Token.remains_of_isFunction ht
  have hopening : t.isOpening = false := Token.isOpening_of_isFunction ht
  rw [noteContent_eq]
  refine ⟨h.places.hold hstart (Token.isOperand_of_isFunction ht)
    (by rw [hopening, hremains]; rfl), congrArg _ h.stack, h.output, ?_⟩
  rw [List.filter_cons_of_neg (by simp [hopening])]
  exact h.frames.content hremains

theorem opening (h : Tracks y ts done waiting sent) (hstart : done ++ [t] <+: ts)
    (ht : t.isOpening = true) :
    Tracks (y.opening t) ts (done ++ [t]) (⟨done.length, t⟩ :: waiting) sent := by
  have hk := Token.isOpening_iff.mp ht
  rw [opening_eq]
  refine ⟨h.places.hold hstart (by simp [Token.isOperand, hk]) (by simp [ht, Token.remains, hk]),
    congrArg _ h.stack, h.output, ?_⟩
  rw [List.filter_cons_of_pos (by simp [ht])]
  exact h.frames.opening ht

/-- An operator sends what makes way for it, in which there is no function and no open
parenthesis. -/
theorem operator (h : Tracks y ts done waiting sent) (hstart : done ++ [t] <+: ts) {b : Binding}
    (ht : t.kind = .operator b) :
    ∃ waiting' sent', Tracks (y.operator t) ts (done ++ [t]) waiting' sent' := by
  let p : Placed → Bool := fun q => yields t q.token
  -- functions and open parentheses give way to no operator
  have hmoved : ∀ q ∈ waiting.takeWhile p,
      q.token.isOpening = false ∧ q.token.isFunction = false := by
    intro q hq
    have hyields : yields t q.token = true := List.all_eq_true.mp List.all_takeWhile q hq
    refine ⟨Bool.eq_false_iff.mpr fun ho => ?_, Bool.eq_false_iff.mpr fun hf => ?_⟩
    · rw [yields_eq_false (.inl ho)] at hyields
      exact Bool.false_ne_true hyields
    · rw [yields_eq_false (.inr hf)] at hyields
      exact Bool.false_ne_true hyields
  have hplaces : Places ts done (waiting.takeWhile p ++ waiting.dropWhile p) sent := by
    rw [List.takeWhile_append_dropWhile]
    exact h.places
  have hremains : t.remains = true := by rw [Token.remains, ht]
  have hopening : t.isOpening = false := Token.isOpening_eq_false (by simp [ht])
  have hsent := hplaces.send (fun q hq => (hmoved q hq).1) fun q hq hf =>
    absurd hf (Bool.eq_false_iff.mp (hmoved q hq).2)
  have hopenings : waiting.filter (·.token.isOpening) =
      (waiting.dropWhile p).filter (·.token.isOpening) := by
    conv_lhs => rw [← List.takeWhile_append_dropWhile (p := p) (l := waiting), List.filter_append]
    rw [List.filter_eq_nil_iff.mpr fun q hq => Bool.eq_false_iff.mp (hmoved q hq).1,
      List.nil_append]
  refine ⟨⟨done.length, t⟩ :: waiting.dropWhile p, _, hsent.hold hstart
    (by simp [Token.isOperand, ht]) (by rw [hopening, hremains]; rfl), ?_, ?_, ?_⟩
  · rw [Yard.operator, noteContent_eq, hold, sendWhile, h.stack, List.dropWhile_map]
    rfl
  · rw [Yard.operator, noteContent_eq, hold, sendWhile, h.stack, List.takeWhile_map, h.output,
      List.map_append, List.map_reverse]
    rfl
  · rw [List.filter_cons_of_neg (by simp [hopening]), ← hopenings, Yard.operator, noteContent_eq]
    exact h.frames.content hremains

/-- A comma and a closing parenthesis send what waits above the innermost open parenthesis. -/
theorem exists_flush (h : Tracks y ts done waiting sent) (hstart : done ++ [t] <+: ts)
    (ht : t.remains = false) (hopening : t.isOpening = false) {inner outer : List Token} {o : Token}
    (hstack : y.stack = inner ++ o :: outer) (hinner : ∀ w ∈ inner, w.isOpening = false)
    (ho : o.isOpening = true) :
    ∃ place outer' sent', Places ts (done ++ [t]) (⟨place, o⟩ :: outer') sent' ∧
      outer = outer'.map (·.token) ∧ inner.reverse ++ y.output = sent'.map (·.token) ∧
      FramesNote done 0 (place :: (outer'.filter (·.token.isOpening)).map (·.place)) y.frames := by
  have hsplit := h.stack.symm.trans hstack
  obtain ⟨moved, rest, rfl, rfl, hrest⟩ := List.map_eq_append_iff.mp hsplit
  obtain ⟨⟨place, o'⟩, outer', rfl, rfl, rfl⟩ := List.map_eq_cons_iff.mp hrest
  have hmoved : ∀ q ∈ moved, q.token.isOpening = false := fun q hq =>
    hinner q.token (List.mem_map_of_mem hq)
  have hskip := h.places.skip hstart ht hopening
  refine ⟨place, outer', moved.reverse ++ sent, hskip.send hmoved fun q hq _ => ?_, rfl, ?_, ?_⟩
  · have hlt := h.places.place_lt (List.mem_append_left _ hq)
    exact hskip.getElem?_eq (by rw [List.length_append, List.length_singleton]; omega)
  · rw [List.map_append, List.map_reverse, h.output]
  · have hframes := h.frames
    rw [List.filter_append,
      List.filter_eq_nil_iff.mpr fun q hq => Bool.eq_false_iff.mp (hmoved q hq), List.nil_append,
      List.filter_cons_of_pos (by exact ho)] at hframes
    exact hframes

/-- A comma sends what waits, and does not wait itself. -/
theorem comma (h : Tracks y ts done waiting sent) (hstart : done ++ [t] <+: ts)
    (ht : t.kind = .comma) (hy : y.comma t = .ok y') :
    ∃ waiting' sent', Tracks y' ts (done ++ [t]) waiting' sent' := by
  obtain ⟨inner, o, outer, g, gs, hstack, hinner, ho, hg, rfl⟩ := exists_of_comma h.framed hy
  obtain ⟨place, outer', sent', hplaces, rfl, hsent, hframes⟩ := h.exists_flush hstart
    (by rw [Token.remains, ht]) (Token.isOpening_eq_false (by simp [ht])) hstack hinner ho
  rw [hg] at hframes
  refine ⟨⟨place, o⟩ :: outer', sent', hplaces, rfl, hsent, ?_⟩
  rw [List.filter_cons_of_pos (by exact ho)]
  exact hframes.comma ht

/-- A closing parenthesis sends what waits and takes the opening one away. -/
theorem closing (h : Tracks y ts done waiting sent) (hstart : done ++ [t] <+: ts)
    (ht : t.kind = .parenthesis .closing) (hy : y.closing t = .ok y') :
    ∃ waiting' sent', Tracks y' ts (done ++ [t]) waiting' sent' := by
  obtain ⟨inner, o, outer, g, gs, hstack, hinner, ho, hg, rfl⟩ := exists_of_closing h.framed hy
  obtain ⟨place, outer', sent', hplaces, rfl, hsent, hframes⟩ := h.exists_flush hstart
    (by rw [Token.remains, ht]) (Token.isOpening_eq_false (by simp [ht])) hstack hinner ho
  rw [hg] at hframes
  have hplace := hframes.place_lt
  obtain ⟨hcount, hframes⟩ := hframes.closing ht
  by_cases hhead : ∀ p ∈ outer'.head?, p.token.isFunction = false
  · have hnone : ∀ w ∈ (outer'.map (·.token)).head?, w.isFunction = false := by
      simpa [List.head?_map] using hhead
    rw [applyFunction_of_head hnone]
    exact ⟨outer', sent', hplaces.close ho hhead, rfl, hsent, hframes⟩
  · obtain ⟨f, below, rfl, hf⟩ : ∃ f below, outer' = f :: below ∧ f.token.isFunction = true := by
      cases outer' with
      | nil => simp at hhead
      | cons f below => exact ⟨f, below, rfl, by simpa using hhead⟩
    obtain ⟨rest, rfl⟩ := hstart
    have hinside : (done ++ [t] ++ rest).drop (place + 1) = done.drop (place + 1) ++ t :: rest := by
      rw [List.append_assoc, List.drop_append_of_le_length hplace]
      rfl
    have hopening : f.token.isOpening = false := Token.isOpening_of_isFunction hf
    rw [List.map_cons, applyFunction_of_isFunction hf]
    refine ⟨below, _, hplaces.call ho hf hinside ht hcount, rfl, congrArg _ hsent, ?_⟩
    rwa [List.filter_cons_of_neg (by simp [hopening])] at hframes

/-- **A token that comes in finds its place in the yard.** -/
theorem of_step (h : Tracks y ts done waiting sent) (hstart : done ++ [t] <+: ts)
    (hy : y.step t = .ok y') : ∃ waiting' sent', Tracks y' ts (done ++ [t]) waiting' sent' := by
  obtain ⟨ht, rfl⟩ | ⟨⟨b, ht⟩, rfl⟩ | ⟨ht, rfl⟩ | ⟨ht, rfl⟩ | ⟨ht, hy⟩ | ⟨ht, hy⟩ := step_cases hy
  · exact ⟨_, _, h.operand hstart (Token.isOperand_iff.mpr ht)⟩
  · exact h.operator hstart ht
  · exact ⟨_, _, h.function hstart ht⟩
  · exact ⟨_, _, h.opening hstart ht⟩
  · exact h.closing hstart ht hy
  · exact h.comma hstart ht hy

/-- So do all tokens of a formula that the yard accepts. -/
theorem of_run {us : List Token} (h : Tracks y ts done waiting sent) (hts : done ++ us = ts)
    (hy : y.run us = .ok y') : ∃ waiting' sent', Tracks y' ts ts waiting' sent' := by
  induction us generalizing y done waiting sent with
  | nil =>
    obtain rfl : y = y' := Except.ok.inj hy
    rw [List.append_nil] at hts
    subst hts
    exact ⟨waiting, sent, h⟩
  | cons t us ih =>
    obtain ⟨y₁, hstep, hrun⟩ := exists_step_of_run hy
    have hts' : done ++ [t] ++ us = ts := by rw [List.append_assoc]; exact hts
    obtain ⟨waiting₁, sent₁, h₁⟩ := h.of_step ⟨us, hts'⟩ hstep
    exact ih h₁ hts' hrun

end Tracks

end Yard

namespace Rpn

variable {ts post : List Token} {placed : List Placed}

/-- **What comes out of the yard is an arrangement of what went in.** -/
theorem exists_arrangement (h : ofTokens ts = .ok post) :
    ∃ placed : List Placed, placed.map (·.token) = post ∧ Arrangement ts placed := by
  obtain ⟨stack, output, hrun, hstack, rfl⟩ := Yard.exists_run_of_ofTokens h
  obtain ⟨waiting, sent, htracks⟩ := (Yard.Tracks.empty ts).of_run rfl hrun
  obtain rfl : stack = waiting.map (·.token) := htracks.stack
  obtain rfl : output = sent.map (·.token) := htracks.output
  -- at the end all that waits is sent
  have hplaces : Yard.Places ts ts (waiting ++ []) sent := by
    rw [List.append_nil]
    exact htracks.places
  have hsent := hplaces.send (fun p hp => hstack _ (List.mem_map_of_mem hp)) fun _ _ _ => rfl
  refine ⟨(waiting.reverse ++ sent).reverse, by simp, ?_, fun p hp => ?_, ?_⟩
  · exact ((List.reverse_perm _).map _).trans hsent.perm
  · exact hsent.settled p (List.mem_reverse.mp hp)
  · exact List.pairwise_reverse.mpr hsent.ordered

/-- The elements that satisfy a condition, by their places. -/
theorem filter_eq_filterMap_findIdxs {α : Type} (p : α → Bool) (xs : List α) :
    xs.filter p = (xs.findIdxs p).filterMap (xs[·]?) := by
  induction xs using List.reverseRecOn with
  | nil => rfl
  | append_singleton xs x ih =>
    have hbefore : (xs.findIdxs p).filterMap ((xs ++ [x])[·]?) =
        (xs.findIdxs p).filterMap (xs[·]?) :=
      List.filterMap_congr fun i hi => List.getElem?_append_left
        (List.mem_findIdxs_iff_exists_getElem_pos.mp hi).1
    rw [List.filter_append, ih, List.findIdxs_append, List.filterMap_append, hbefore,
      List.findIdxs_singleton]
    cases hx : p x <;> simp [hx]

private theorem Settles.remains {place : Nat} {t u : Token} (h : Settles ts place t u) :
    u.remains = t.remains := by
  obtain rfl | ⟨-, n, rfl⟩ := h.same
  · rfl
  · exact t.remains_withArity n

/-- An operand comes out as an operand, and nothing else does. -/
theorem Settles.isOperand {place : Nat} {t u : Token} (h : Settles ts place t u) :
    u.isOperand = t.isOperand := by
  obtain rfl | ⟨-, n, rfl⟩ := h.same
  · rfl
  · exact t.isOperand_withArity n

namespace Arrangement

/-- Neither parentheses nor commas come out. -/
theorem remains (h : Arrangement ts placed) {p : Placed} (hp : p ∈ placed) :
    p.token.remains = true := by
  obtain ⟨t, ht⟩ := h.settled p hp
  obtain ⟨hlt, hremains⟩ := List.mem_findIdxs_iff_exists_getElem_pos.mp
    (h.perm.subset (List.mem_map_of_mem hp))
  obtain ⟨_, rfl⟩ := List.getElem?_eq_some_iff.mp ht.found
  rw [ht.remains]
  exact hremains

/-- An operand that comes out is the token that went in at its place. -/
theorem found_of_isOperand (h : Arrangement ts placed) {p : Placed} (hp : p ∈ placed)
    (hoperand : p.token.isOperand = true) : ts[p.place]? = some p.token := by
  obtain ⟨t, ht⟩ := h.settled p hp
  obtain heq | ⟨hf, n, hn⟩ := ht.same
  · rw [heq]
    exact ht.found
  · rw [hn, Token.isOperand_withArity, Token.isOperand_of_isFunction hf] at hoperand
    exact absurd hoperand Bool.false_ne_true

/-- The operands come out in the order of their places. -/
theorem places_of_operands (h : Arrangement ts placed) :
    (placed.filter (·.token.isOperand)).map (·.place) = ts.findIdxs Token.isOperand := by
  have hsorted : ((placed.filter (·.token.isOperand)).map (·.place)).Pairwise (· < ·) := by
    refine List.pairwise_map.mpr ((h.ordered.filter _).imp_of_mem fun _ hq hlt => hlt ?_)
    exact (List.mem_filter.mp hq).2
  refine hsorted.eq_of_mem_iff List.pairwise_findIdxs fun i => ?_
  rw [List.mem_map, List.mem_findIdxs_iff_exists_getElem_pos]
  constructor
  · rintro ⟨p, hp, rfl⟩
    obtain ⟨hmem, hoperand⟩ := List.mem_filter.mp hp
    obtain ⟨hlt, htoken⟩ := List.getElem?_eq_some_iff.mp (h.found_of_isOperand hmem hoperand)
    exact ⟨hlt, by rw [htoken]; exact hoperand⟩
  · rintro ⟨hlt, hoperand⟩
    -- an operand remains, so it is at some place in the arrangement
    have hmem : i ∈ ts.findIdxs Token.remains :=
      List.mem_findIdxs_iff_exists_getElem_pos.mpr ⟨hlt, Token.remains_of_isOperand hoperand⟩
    obtain ⟨p, hp, rfl⟩ := List.mem_map.mp (h.perm.symm.subset hmem)
    obtain ⟨t, ht⟩ := h.settled p hp
    obtain ⟨_, rfl⟩ := List.getElem?_eq_some_iff.mp ht.found
    exact ⟨p, List.mem_filter.mpr ⟨hp, ht.isOperand.trans hoperand⟩, rfl⟩

/-- The operands come out in their order. -/
theorem filter_isOperand (h : Arrangement ts placed) :
    (placed.map (·.token)).filter Token.isOperand = ts.filter Token.isOperand := by
  have hfound : ((placed.filter (·.token.isOperand)).map (·.place)).filterMap (ts[·]?) =
      (placed.filter (·.token.isOperand)).map (·.token) := by
    rw [List.filterMap_map, ← List.filterMap_eq_map]
    refine List.filterMap_congr fun p hp => ?_
    obtain ⟨hmem, hoperand⟩ := List.mem_filter.mp hp
    exact h.found_of_isOperand hmem hoperand
  rw [filter_eq_filterMap_findIdxs Token.isOperand ts, ← h.places_of_operands, hfound,
    List.filter_map]
  rfl

end Arrangement

variable {σ ε : Type}

/-- If there are no parentheses and no commas, then all that cannot be read is a literal. -/
theorem exists_literal_of_evaluate {lookup : Lookup σ ε} {s s' : σ} {e : ParseError}
    (hpost : ∀ t ∈ post, t.remains = true)
    (h : evaluate lookup post s = (.error (.fault (.parse e)), s')) :
    ∃ t ∈ post, t.kind = .value ∧ e = .invalidLiteral t.text := by
  obtain ⟨before, t, after, stack, s₁, rfl, -, hpush⟩ | ⟨stack, -, -, he⟩ := evaluate_error_cases h
  · have ht : t ∈ before ++ t :: after := by simp
    obtain ⟨hside, hcomma⟩ := Token.kind_ne_of_remains (hpost t ht)
    obtain ⟨hk, he⟩ | ⟨-, e', -, he⟩ | ⟨b, e', -, -, he⟩ | ⟨side, hk⟩ | hk := push_error_cases hpush
    · exact ⟨t, ht, hk, Error.parse.inj (Failure.fault.inj he)⟩
    · cases he
    · cases he
    · exact absurd hk (hside side)
    · exact absurd hk hcomma
  · cases he

/-- **The yard loses, doubles and reorders nothing.** What comes out is an arrangement of the
tokens without the parentheses and commas, in which the operands keep their order. So evaluating
it never comes upon a parenthesis or a comma. -/
theorem arrangement_of_ofTokens {ts post : List Token} (h : ofTokens ts = .ok post) :
    (∃ placed : List Placed, placed.map (·.token) = post ∧ Arrangement ts placed) ∧
      (∀ t ∈ post, (∀ side, t.kind ≠ .parenthesis side) ∧ t.kind ≠ .comma) ∧
      post.filter Token.isOperand = ts.filter Token.isOperand ∧
      ∀ {σ ε : Type} (lookup : Lookup σ ε) (s s' : σ) (e : ParseError),
        evaluate lookup post s = (.error (.fault (.parse e)), s') →
          ∀ position, e ≠ .unbalancedParenthesis position ∧ e ≠ .misplacedComma position := by
  obtain ⟨placed, rfl, harrangement⟩ := exists_arrangement h
  have hremains : ∀ t ∈ placed.map (·.token), t.remains = true := by
    intro t ht
    obtain ⟨p, hp, rfl⟩ := List.mem_map.mp ht
    exact harrangement.remains hp
  refine ⟨⟨placed, rfl, harrangement⟩, fun t ht => Token.kind_ne_of_remains (hremains t ht),
    harrangement.filter_isOperand, ?_⟩
  intro σ ε lookup s s' e hevaluate position
  obtain ⟨t, -, -, rfl⟩ := exists_literal_of_evaluate hremains hevaluate
  exact ⟨by simp, by simp⟩

/-- In `max(x,(1,2))-y` the call has two arguments, and the comma of the group inside is not
counted. -/
theorem arrangement_call_minus_name :
    let minus : Token := ⟨"-", .operator ⟨.minus, 6, .fixed 2, false⟩, 12⟩
    let ts : List Token := [⟨"max", .function ⟨.max, 0, .variadic, false⟩, 0⟩,
      ⟨"(", .parenthesis .opening, 3⟩, ⟨"x", .symbol, 4⟩, ⟨",", .comma, 5⟩,
      ⟨"(", .parenthesis .opening, 6⟩, ⟨"1", .value, 7⟩, ⟨",", .comma, 8⟩, ⟨"2", .value, 9⟩,
      ⟨")", .parenthesis .closing, 10⟩, ⟨")", .parenthesis .closing, 11⟩, minus,
      ⟨"y", .symbol, 13⟩]
    let post : List Token := [⟨"x", .symbol, 4⟩, ⟨"1", .value, 7⟩, ⟨"2", .value, 9⟩,
      ⟨"max", .function ⟨.max, 0, .fixed 2, false⟩, 0⟩, ⟨"y", .symbol, 13⟩, minus]
    ofTokens ts = .ok post ∧
      (∃ placed : List Placed, placed.map (·.token) = post ∧ Arrangement ts placed) ∧
      post.filter Token.isOperand = ts.filter Token.isOperand := by
  intro minus ts post
  have h : ofTokens ts = .ok post := by rfl
  exact ⟨h, (arrangement_of_ofTokens h).1, (arrangement_of_ofTokens h).2.2.1⟩

end Rpn

end Formula
