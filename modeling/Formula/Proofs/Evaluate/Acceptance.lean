import Formula.Proofs.Evaluate.Names
import Formula.Proofs.Grammar.Balance

/-!
# Which formulas have a value

A formula with a value need not be derivable. The evaluation counts operands and does not look
where they stand. A function takes operands from outside of its parentheses, if it has any, and an
operand too many makes up for one that is missing elsewhere: `(1)(2)+` has the value of `1+2`.

These are the only ways (`derivable_of_evaluate`). The tokens of a formula with a value are
derivable unless there is a function among them that is not directly followed by its parenthesis,
or there are as many surplus operands as missing ones, and at least one of each.
-/

namespace Formula

variable {σ ε : Type}

/-- The operators in a text have one operand or two. -/
theorem Token.arity_of_tokenize {s : String} {ts : List Token} {t : Token} {b : Binding}
    (h : tokenize (Text.normalize s) = .ok ts) (ht : t ∈ ts) (hb : t.kind = .operator b) :
    b.arity = .fixed 1 ∨ b.arity = .fixed 2 := by
  obtain ⟨e, he, position, previous, rfl⟩ :=
    Word.exists_entry_of_binding h ht (b := b) (by rw [binding?, hb])
  have hprovides : Catalog.Provides (.operator b) := ⟨e, he, previous, hb⟩
  obtain ⟨-, harity, -⟩ | ⟨-, harity, -⟩ | ⟨-, harity⟩ := Catalog.form_of_provides hprovides
  · exact .inl harity
  · exact .inl harity
  · exact .inr harity

/-- **A formula with a value is derivable**, unless a function in it is not directly followed by
an opening parenthesis, or surplus operands make up for missing ones. -/
theorem derivable_of_evaluate {lookup : Lookup σ ε} {expression : String} {v : Value} {s s' : σ}
    (h : evaluate lookup expression s = (.ok v, s')) :
    ∃ ts, Token.tokenize (Text.normalize expression) = .ok ts ∧
      (Derivable ts ∨
        (∃ front g rest, ts = front ++ g :: rest ∧ g.isFunction = true ∧
          ∀ o ∈ rest.head?, o.isOpening = false) ∨
        (0 < (Token.flaws ts).count .surplus ∧
          (Token.flaws ts).count .surplus = (Token.flaws ts).count .lacking)) := by
  obtain ⟨ts, post, hts, hpost, hvalue⟩ := exists_of_evaluate h
  refine ⟨ts, hts, ?_⟩
  by_cases huncalled : .uncalled ∈ Token.flaws ts
  · exact .inr (.inl (uncalled_mem_flaws_start_iff.mp huncalled))
  obtain ⟨hungrouped, hgains⟩ :=
    Rpn.gains_of_ofTokens hpost (fun t ht b => Token.arity_of_tokenize hts ht) huncalled
  -- one value is gained and one is left
  have hexcess : Flaw.excess (Token.flaws ts) = 0 := by
    rw [Rpn.gains_of_evaluate hvalue] at hgains
    omega
  have hcount : (Token.flaws ts).count .surplus = (Token.flaws ts).count .lacking := by
    rw [Flaw.excess] at hexcess
    omega
  by_cases hsurplus : .surplus ∈ Token.flaws ts
  · exact .inr (.inr ⟨List.count_pos_iff.mpr hsurplus, hcount⟩)
  · have hlacking : .lacking ∉ Token.flaws ts := by
      rw [List.count_eq_zero.mpr hsurplus] at hcount
      exact List.count_eq_zero.mp hcount.symm
    refine .inl (derivable_iff.mpr (List.eq_nil_iff_forall_not_mem.mpr fun f hf => ?_))
    cases f with
    | surplus => exact hsurplus hf
    | lacking => exact hlacking hf
    | uncalled => exact huncalled hf
    | ungrouped => exact hungrouped hf

theorem evaluate_call_times_negative :
    evaluate (Lookup.noVariables : Lookup Unit Error) "max(1,2)*-3" () =
        (.ok (.integer (-6)), ()) ∧
      ∃ ts, Token.tokenize (Text.normalize "max(1,2)*-3") = .ok ts ∧
        (Derivable ts ∨
          (∃ front g rest, ts = front ++ g :: rest ∧ g.isFunction = true ∧
            ∀ o ∈ rest.head?, o.isOpening = false) ∨
          (0 < (Token.flaws ts).count .surplus ∧
            (Token.flaws ts).count .surplus = (Token.flaws ts).count .lacking)) := by
  have hvalue : (evaluate (Lookup.noVariables : Lookup Unit Error) "max(1,2)*-3" ()).1 =
      .ok (.integer (-6)) := by decide +kernel
  have h : evaluate (Lookup.noVariables : Lookup Unit Error) "max(1,2)*-3" () =
      (.ok (.integer (-6)), ()) := Prod.ext hvalue rfl
  exact ⟨h, derivable_of_evaluate h⟩

/-- Tokens with a flaw are not derivable. -/
theorem Token.exists_not_derivable {text : String}
    (h : (tokenize text).map (fun ts => (flaws ts).isEmpty) = .ok false) :
    ∃ ts, tokenize text = .ok ts ∧ ¬Derivable ts := by
  cases hts : tokenize text with
  | error e =>
    rw [hts] at h
    cases h
  | ok ts =>
    rw [hts] at h
    have hempty : (flaws ts).isEmpty = false := Except.ok.inj h
    exact ⟨ts, rfl, fun hd => by rw [derivable_iff.mp hd] at hempty; cases hempty⟩

/-- Operands side by side and an operator behind them, an operand in front of a call with an empty
argument, and a function behind its operand: these have values. -/
theorem evaluate_not_derivable :
    let outcome := fun text => (evaluate (Lookup.noVariables : Lookup Unit Error) text ()).1
    let Underivable := fun text =>
      ∃ ts, Token.tokenize (Text.normalize text) = .ok ts ∧ ¬Derivable ts
    (outcome "(1)(2)+" = .ok (.integer 3) ∧ Underivable "(1)(2)+") ∧
      (outcome "1max(,2)" = .ok (.integer 2) ∧ Underivable "1max(,2)") ∧
      outcome "1abs" = .ok (.integer 1) ∧ Underivable "1abs" := by
  intro outcome Underivable
  have hvalues : outcome "(1)(2)+" = .ok (.integer 3) ∧ outcome "1max(,2)" = .ok (.integer 2) ∧
      outcome "1abs" = .ok (.integer 1) := by decide +kernel
  refine ⟨⟨hvalues.1, ?_⟩, ⟨hvalues.2.1, ?_⟩, hvalues.2.2, ?_⟩
  all_goals exact Token.exists_not_derivable (by decide +kernel)

end Formula
