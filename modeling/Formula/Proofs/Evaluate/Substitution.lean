import Formula.Proofs.Evaluate.Words
import Formula.Proofs.Token.Replacement

/-!
# Substitution

A formula in parentheses may stand for a variable: if it has a value without variables, then
putting it in the place of a name is evaluating with this value as the answer for the name
(`evaluate_substitute`). The substitution is done in the text, in its normal form
(`Token.substitute`), and nothing is asked of the formula around the name but that it consists
of words; what is wrong with it stays wrong in the same way.
-/

namespace Formula

variable {σ ε : Type}

/-- The text of the tokens with every variable of the given name replaced by a text in
parentheses. -/
def Token.substitute (name body : String) (ts : List Token) : String :=
  String.join (ts.map fun t => if t.isNamed name then "(" ++ body ++ ")" else t.text)

/-! ### The text -/

namespace Word

/-- Substitution in a text is replacement of its words. -/
theorem substitute_tokens (name : String) (vs ws : List Word) (position : Nat)
    (previous : Option Token) :
    Token.substitute name (String.ofList (text vs)) (tokens position previous ws) =
      String.ofList (text (replaceAll (isNamed name) (enclosed vs) ws)) := by
  induction ws generalizing position previous with
  | nil => rfl
  | cons w ws ih =>
    have hword : (if w.isNamed name then "(" ++ String.ofList (text vs) ++ ")"
          else String.ofList w.chars) =
        String.ofList (text (if w.isNamed name then enclosed vs else [w])) := by
      split
      · rw [text_enclosed, ← String.toList_inj]
        simp
      · simp
    have hrest := ih (position + Token.byteLength w.chars) (some (w.token position previous))
    rw [Token.substitute] at hrest
    rw [Token.substitute, tokens, List.map_cons, String.join_cons, hrest, isNamed_token,
      text_token, hword, replaceAll_cons, text_append, String.ofList_append]

end Word

/-! ### The evaluation -/

/-- Reading and evaluating tokens with a name replaced by a group. -/
theorem Rpn.value_replaceAll {ts us post : List Token} {v : Value} {name : String}
    (hts : ts.IsChain Token.Adjoins) (hus : Rpn.ofTokens us = .ok post)
    (hpost : ∀ {τ δ : Type} (lookup : Lookup τ δ) (stack : List Value),
      post.foldlM (push lookup) stack = pure (v :: stack)) (lookup : Lookup σ ε) :
    value lookup (replaceAll (Token.isNamed name) (Token.enclosed us) ts) =
      value (lookup.update name v) ts := by
  have hnamed : ∀ t, Token.isNamed name t = true ↔ t.kind = .symbol ∧ t.text = name := by
    intro t
    rw [Token.isNamed, decide_eq_true_iff]
  have hgroup : Yard.Reads none (Token.enclosed us) post := Yard.reads_of_ofTokens hus rfl rfl
  rw [value, value, ofTokens_replace (fun t ht => ((hnamed t).mp ht).1) hgroup hts]
  obtain e | ps := Rpn.ofTokens ts
  · rfl
  · have hfold := foldlM_push_replace hnamed (hpost lookup) ps []
    change evaluate lookup (replaceAll (Token.isNamed name) post ps) =
      evaluate (lookup.update name v) ps
    rw [evaluate, evaluate, hfold]

/-- **Substitution.** Let a formula have a value without variables, and put it in parentheses
in the place of a name in the normal form of a text. The result has the value of the text with
that value as the answer for the name, or the same error up to positions. -/
theorem evaluate_substitute {e t name : String} {v : Value} {ts : List Token}
    (ht : evaluate Lookup.noVariables t () = (.ok v, ()))
    (he : Token.tokenize (Text.normalize e) = .ok ts) :
    String.join (ts.map (·.text)) = Text.normalize e ∧
      ∀ {σ ε : Type} (lookup : Lookup σ ε),
        (evaluate lookup (Token.substitute name (Text.normalize t) ts)).unplaced =
          (evaluate (lookup.update name v) e).unplaced := by
  obtain ⟨us, post, htokens, hpost, hvalue⟩ := exists_of_evaluate ht
  obtain ⟨vs, hvs, hvstext, rfl⟩ := Word.exists_of_tokenize htokens
  obtain ⟨ws, hws, hwstext, rfl⟩ := Word.exists_of_tokenize he
  have hbody : Text.normalize t = String.ofList (Word.text vs) := by rw [hvstext, Text.normalize]
  refine ⟨by rw [Word.join_text_tokens, hwstext, Text.normalize], fun lookup => ?_⟩
  -- the words of the text with the name replaced are found again in it
  have hcut := Word.cut_replaceAll (p := Word.isNamed name) hvs hws
  have hupper : ∀ c ∈ Word.text (replaceAll (Word.isNamed name) (Word.enclosed vs) ws),
      c.isUpper = false := by
    intro c hc
    obtain hc | hc | rfl | rfl := Word.mem_text_replaceAll hc
    · exact (Text.settled_of_mem_normalizeChars c (hwstext ▸ hc)).1
    · exact (Text.settled_of_mem_normalizeChars c (hvstext ▸ hc)).1
    · rfl
    · rfl
  have hread := Word.tokenize_normalize (s := Token.substitute name (Text.normalize t)
    (Word.tokens 0 none ws)) hcut hupper (by
      rw [hbody, Word.substitute_tokens, String.toList_ofList]
      exact Text.respelled_self _)
  rw [evaluate_of_tokenize hread, evaluate_of_tokenize he,
    Rpn.value_congr lookup (Word.tokens_replaceAll name rfl vs ws 0 0),
    Rpn.value_replaceAll (Word.isChain_tokens hws 0 none) hpost
      (fun lookup => Rpn.foldlM_push_of_evaluate hvalue lookup)]

/-- A sum in the place of a factor, in a formula that is not complete. -/
theorem evaluate_substitute_factor :
    let ts : List Token := [⟨"2", .value, 0⟩, ⟨"*", .operator ⟨.multiply, 5, .fixed 2, false⟩, 1⟩,
      ⟨"x", .symbol, 2⟩, ⟨"-", .operator ⟨.minus, 6, .fixed 2, false⟩, 3⟩]
    let answer : Lookup Nat Error := fun name count =>
      (.error (.runtime (.unknownVariable name)), count + 1)
    evaluate Lookup.noVariables "1 + 2" () = (.ok (.integer 3), ()) ∧
      Token.tokenize (Text.normalize "2 * X -") = .ok ts ∧
      Token.substitute "x" (Text.normalize "1 + 2") ts = "2*(1+2)-" ∧
      (evaluate answer "2*(1+2)-").unplaced =
        (evaluate (answer.update "x" (.integer 3)) "2 * X -").unplaced := by
  intro ts answer
  have hvalue : (evaluate Lookup.noVariables "1 + 2" ()).1 = .ok (.integer 3) := by decide +kernel
  have ht : evaluate Lookup.noVariables "1 + 2" () = (.ok (.integer 3), ()) := Prod.ext hvalue rfl
  have he : Token.tokenize (Text.normalize "2 * X -") = .ok ts := by decide +kernel
  have htext : Token.substitute "x" (Text.normalize "1 + 2") ts = "2*(1+2)-" := by decide +kernel
  exact ⟨ht, he, htext, htext ▸ (evaluate_substitute ht he).2 answer⟩

end Formula
