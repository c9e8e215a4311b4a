import Formula.Proofs.Evaluate.Questions

/-!
# Literals that denote nothing

A literal is read when the evaluation comes to it. Nothing has been evaluated then but tokens
that stand in front of the literal (`Rpn.exists_split_of_ofTokens`). So a formula with a literal
that denotes nothing has no value, and its error is that of the literal unless something in front
of it fails earlier (`evaluate_of_rejected`).
-/

namespace Formula

variable {σ ε : Type}

/-- What is neither a variable nor an operator or a function, and no parenthesis or comma. -/
theorem Token.kind_eq_value {t : Token} (ht : t.remains = true) (hsymbol : t.kind ≠ .symbol)
    (hbinding : t.binding? = none) : t.kind = .value := by
  cases hk : t.kind with
  | value => rfl
  | symbol => exact absurd hk hsymbol
  | operator b | function b => simp [binding?, hk] at hbinding
  | parenthesis side | comma => simp [remains, hk] at ht

namespace Rpn

variable {before after post : List Token} {t : Token}

/-! ### What comes out in front of an operand -/

/-- Only tokens from in front of an operand come out in front of it, and among them all the
operands from there. -/
theorem Arrangement.exists_split {placed : List Placed}
    (h : Arrangement (before ++ t :: after) placed) (ht : t.isOperand = true) :
    ∃ front back, placed = front ++ ⟨before.length, t⟩ :: back ∧
      (∀ p ∈ front, p.place < before.length) ∧
      (front.filter (·.token.isOperand)).map (·.place) = before.findIdxs Token.isOperand := by
  have hfound : (before ++ t :: after)[before.length]? = some t := by simp
  obtain ⟨⟨place, u⟩, hp, rfl⟩ : ∃ p ∈ placed, p.place = before.length := by
    refine List.mem_map.mp (h.perm.symm.subset ?_)
    refine List.mem_findIdxs_iff_exists_getElem_pos.mpr ⟨by simp, ?_⟩
    rw [(List.getElem?_eq_some_iff.mp hfound).2]
    exact Token.remains_of_isOperand ht
  obtain rfl : t = u := by
    obtain ⟨t', hsettles⟩ := h.settled _ hp
    obtain rfl : t = t' := Option.some.inj (hfound.symm.trans hsettles.found)
    have hu := h.found_of_isOperand hp (hsettles.isOperand.trans ht)
    exact Option.some.inj (hfound.symm.trans hu)
  obtain ⟨front, back, rfl⟩ := List.append_of_mem hp
  refine ⟨front, back, rfl, fun p hp => ?_, ?_⟩
  · exact (List.pairwise_append.mp h.ordered).2.2 p hp _ List.mem_cons_self ht
  · -- its place divides the places of all operands, which keep their order
    have hplaces := h.places_of_operands
    rw [List.filter_append, List.filter_cons_of_pos (by exact ht), List.map_append, List.map_cons,
      List.findIdxs_append, List.findIdxs_cons, if_pos ht, Nat.zero_add] at hplaces
    refine ((List.append_cons_inj_of_notMem ?_ ?_).mp hplaces.symm).1.symm
    · exact fun hmem => Nat.lt_irrefl _ (List.lt_add_of_mem_findIdxs _ hmem)
    · exact fun hmem => Nat.not_succ_le_self _ (List.ge_of_mem_findIdxs _ hmem)

/-- The tokens that come out in front of an operand. -/
theorem exists_split_of_ofTokens (h : ofTokens (before ++ t :: after) = .ok post)
    (ht : t.isOperand = true) :
    ∃ front back, post = front ++ t :: back ∧ (∀ u ∈ front, u.remains = true) ∧
      (∀ u ∈ front, ∃ w ∈ before, u = w ∨ w.isFunction = true ∧ ∃ n, u = w.withArity n) ∧
      front.filter Token.isOperand = before.filter Token.isOperand := by
  obtain ⟨placed, rfl, harrangement⟩ := exists_arrangement h
  have hfilter := harrangement.filter_isOperand
  obtain ⟨front, back, rfl, hfront, hplaces⟩ := harrangement.exists_split ht
  refine ⟨front.map (·.token), back.map (·.token), by simp, ?_, ?_, ?_⟩
  · exact List.forall_mem_map.mpr fun p hp => harrangement.remains (List.mem_append_left _ hp)
  · refine List.forall_mem_map.mpr fun p hp => ?_
    obtain ⟨w, hw⟩ := harrangement.settled p (List.mem_append_left _ hp)
    have hfound := hw.found
    rw [List.getElem?_append_left (hfront p hp)] at hfound
    exact ⟨w, List.mem_of_getElem? hfound, hw.same⟩
  · have hlength : ((front.map (·.token)).filter Token.isOperand).length =
        (before.filter Token.isOperand).length := by
      have hcount := congrArg List.length hplaces
      rw [List.length_map, List.length_findIdxs, List.countP_eq_length_filter] at hcount
      rw [List.filter_map, List.length_map]
      exact hcount
    rw [List.map_append, List.map_cons, List.filter_append, List.filter_append] at hfilter
    exact (List.append_inj hfilter hlength).1

/-! ### Evaluating up to the literal -/

/-- A literal that denotes nothing ends the evaluation. -/
theorem push_of_ofLiteral_error (lookup : Lookup σ ε) {e : ParseError} (hk : t.kind = .value)
    (h : Value.ofLiteral t.text = .error e) (stack : List Value) :
    push lookup stack t = .ofParse (.error (.invalidLiteral t.text)) := by
  rw [push, hk]
  simp only [h, eq_of_ofLiteral_error h]
  rfl

/-- Behind the tokens in front of a literal that denotes nothing there is only its error. -/
theorem evaluate_of_ofLiteral_error (lookup : Lookup σ ε) {e : ParseError} (hk : t.kind = .value)
    (h : Value.ofLiteral t.text = .error e) (front back : List Token) :
    evaluate lookup (front ++ t :: back) =
      front.foldlM (push lookup) [] >>= fun _ => .ofParse (.error (.invalidLiteral t.text)) := by
  rw [evaluate, List.foldlM_append, bind_assoc]
  refine congrArg _ (funext fun stack => ?_)
  rw [List.foldlM_cons, push_of_ofLiteral_error lookup hk h]
  rfl

/-- Literals alone are evaluated without a question and fail only as literals. -/
theorem foldlM_push_values (lookup : Lookup σ ε) {ts : List Token}
    (hts : ∀ t ∈ ts, t.kind = .value) (stack : List Value) :
    (∃ stack', ts.foldlM (push lookup) stack = pure stack') ∨
      ∃ e, ts.foldlM (push lookup) stack = .ofParse (.error e) := by
  induction ts generalizing stack with
  | nil => exact .inl ⟨stack, rfl⟩
  | cons t ts ih =>
    obtain ⟨hk, hts⟩ := List.forall_mem_cons.mp hts
    rw [List.foldlM_cons]
    cases hv : Value.ofLiteral t.text with
    | ok v =>
      rw [push_value lookup hk hv, pure_bind]
      exact ih hts _
    | error e =>
      rw [push_of_ofLiteral_error lookup hk hv]
      exact .inr ⟨_, rfl⟩

end Rpn

/-! ### Formulas -/

variable {expression : String} {before after : List Token} {t : Token} {e : ParseError}

/-- **A formula with a literal that denotes nothing fails.** The formula cannot be read, or it is
evaluated as far as the literal and fails there if it has not failed before. In front of the
literal only operators, functions and variables are evaluated that stand in front of it; where
there are none of them, the failure is an error of reading, and nothing is asked of the lookup. -/
theorem evaluate_of_rejected
    (htokens : Token.tokenize (Text.normalize expression) = .ok (before ++ t :: after))
    (hk : t.kind = .value) (hreject : Value.ofLiteral t.text = .error e) (lookup : Lookup σ ε) :
    (∀ s, ∃ failure s', evaluate lookup expression s = (.error failure, s')) ∧
      ((∃ e, Rpn.ofText expression = .error e ∧
          evaluate lookup expression = .ofParse (.error e)) ∨
        ∃ front back, Rpn.ofText expression = .ok (front ++ t :: back) ∧
          (∀ u ∈ front, ∃ w ∈ before, u = w ∨ w.isFunction = true ∧ ∃ n, u = w.withArity n) ∧
          front.filter Token.isOperand = before.filter Token.isOperand ∧
          evaluate lookup expression = front.foldlM (Rpn.push lookup) [] >>=
            fun _ => .ofParse (.error (.invalidLiteral t.text))) ∧
      ((∀ u ∈ before, u.kind ≠ .symbol ∧ u.binding? = none) →
        ∃ e, evaluate lookup expression = .ofParse (.error e)) := by
  have hread := Rpn.ofText_of_tokenize htokens
  cases hpost : Rpn.ofTokens (before ++ t :: after) with
  | error e =>
    have hvalue : evaluate lookup expression = .ofParse (.error e) := by
      rw [evaluate, hread, hpost]
      rfl
    refine ⟨fun s => ⟨.fault (.parse e), s, ?_⟩, .inl ⟨e, hread.trans hpost, hvalue⟩,
      fun _ => ⟨e, hvalue⟩⟩
    rw [hvalue]
    rfl
  | ok post =>
    obtain ⟨front, back, rfl, hremains, hfront, hoperands⟩ :=
      Rpn.exists_split_of_ofTokens hpost (Token.isOperand_iff.mpr (.inl hk))
    have hvalue : evaluate lookup expression = front.foldlM (Rpn.push lookup) [] >>=
        fun _ => .ofParse (.error (.invalidLiteral t.text)) := by
      rw [evaluate, hread, hpost]
      exact Rpn.evaluate_of_ofLiteral_error lookup hk hreject front back
    refine ⟨fun s => ?_, .inr ⟨front, back, hread.trans hpost, hfront, hoperands, hvalue⟩,
      fun hbefore => ?_⟩
    · rw [hvalue, Evaluation.bind_apply]
      obtain ⟨failure | stack, s'⟩ := front.foldlM (Rpn.push lookup) [] s
      · exact ⟨failure, s', rfl⟩
      · exact ⟨_, s', rfl⟩
    · -- what comes out in front of the literal are literals
      have hvalues : ∀ u ∈ front, u.kind = .value := fun u hu => by
        obtain ⟨w, hw, rfl | ⟨hf, -⟩⟩ := hfront u hu
        · exact Token.kind_eq_value (hremains u hu) (hbefore u hw).1 (hbefore u hw).2
        · obtain ⟨b, hb⟩ := Token.isFunction_iff.mp hf
          exact absurd (hbefore w hw).2 (by simp [Token.binding?, hb])
      rw [hvalue]
      obtain ⟨stack, hstack⟩ | ⟨e, he⟩ := Rpn.foldlM_push_values lookup hvalues []
      · exact ⟨_, by rw [hstack, pure_bind]⟩
      · exact ⟨e, by rw [he]; rfl⟩

/-- In `max(2/y,1e)` the division comes first. Whatever the variable is, there is no value. -/
theorem evaluate_rejected_argument :
    let two : Lookup Unit Error := fun _ s => (.ok (.integer 2), s)
    let before : List Token := [⟨"max", .function ⟨.max, 0, .variadic, false⟩, 0⟩,
      ⟨"(", .parenthesis .opening, 3⟩, ⟨"2", .value, 4⟩,
      ⟨"/", .operator ⟨.divide, 5, .fixed 2, false⟩, 5⟩, ⟨"y", .symbol, 6⟩, ⟨",", .comma, 7⟩]
    let t : Token := ⟨"1e", .value, 8⟩
    Token.tokenize (Text.normalize "max(2/y,1e)") =
        .ok (before ++ t :: [⟨")", .parenthesis .closing, 10⟩]) ∧
      t.kind = .value ∧ Value.ofLiteral t.text = .error (.invalidLiteral "1e") ∧
      ∃ failure s', evaluate two "max(2/y,1e)" () = (.error failure, s') := by
  intro two before t
  have htokens : Token.tokenize (Text.normalize "max(2/y,1e)") =
      .ok (before ++ t :: [⟨")", .parenthesis .closing, 10⟩]) := by decide +kernel
  have hreject : Value.ofLiteral t.text = .error (.invalidLiteral "1e") := by decide +kernel
  exact ⟨htokens, rfl, hreject, (evaluate_of_rejected htokens rfl hreject two).1 ()⟩

/-- What stands in front of a literal that denotes nothing may fail before it, and variables in
front of it are asked for. -/
theorem evaluate_division_before_literal :
    let t : Token := ⟨"1.2.3", .value, 4⟩
    (∃ before after, Token.tokenize (Text.normalize "1/0+1.2.3") = .ok (before ++ t :: after)) ∧
      Value.ofLiteral t.text = .error (.invalidLiteral "1.2.3") ∧
      (evaluate (Lookup.noVariables : Lookup Unit Error) "1/0+1.2.3" ()).1 =
        .error (.fault (.runtime (.divisionByZero "/"))) ∧
      (evaluate (Lookup.noVariables : Lookup Unit Error).recorded "x+1.2.3" ((), [])).2.2.map
        (·.name) = ["x"] := by
  refine ⟨⟨[⟨"1", .value, 0⟩, ⟨"/", .operator ⟨.divide, 5, .fixed 2, false⟩, 1⟩, ⟨"0", .value, 2⟩,
    ⟨"+", .operator ⟨.plus, 6, .fixed 2, false⟩, 3⟩], [], ?_⟩, ?_, ?_, ?_⟩
  all_goals decide +kernel

end Formula
