import Formula.Evaluate
import Formula.Proofs.Rpn.Unplaced
import Formula.Proofs.Text.Spelling

/-!
# Formulas as words

A formula is brought into normal form and cut into words, and its value is that of their
tokens. The words of a text in normal form write this text one behind the other
(`Word.exists_of_tokenize`), and words that can be told apart and have no capital letters in
them are found again in the text that they write (`Word.tokenize_normalize`).
-/

namespace Formula

variable {σ ε : Type} {ts : List Token} {s : String}

namespace Word

/-- Text in normal form that is read as a whole consists of words. -/
theorem exists_of_tokenize (h : Token.tokenize (Text.normalize s) = .ok ts) :
    ∃ ws, Cut ws ∧ text ws = Text.normalizeChars s.toList ∧ tokens 0 none ws = ts := by
  rw [Token.tokenize, Token.scan, Text.normalize, String.toList_ofList] at h
  have hsettled : ∀ c ∈ Text.normalizeChars s.toList, Token.isSeparator c = false :=
    fun c hc => (Text.settled_of_mem_normalizeChars c hc).2
  rcases hscan : Token.scanFrom 0 none (Text.normalizeChars s.toList) with ⟨us, _ | e⟩
  · rw [hscan] at h
    obtain rfl : us = ts := Except.ok.inj h
    exact exists_cut_of_scanFrom hsettled hscan
  · rw [hscan] at h
    exact absurd h (by simp)

/-- Words that can be told apart are found in their text again. -/
private theorem tokenize_text {ws : List Word} (h : Cut ws) :
    Token.tokenize (String.ofList (text ws)) = .ok (tokens 0 none ws) := by
  rw [Token.tokenize, Token.scan, String.toList_ofList, scanFrom_text h]

/-- Words without capital letters are found in every spelling of the text that they write. -/
theorem tokenize_normalize {ws : List Word} (h : Cut ws)
    (hupper : ∀ c ∈ text ws, c.isUpper = false) (hs : Text.Respelled (text ws) s.toList) :
    Token.tokenize (Text.normalize s) = .ok (tokens 0 none ws) := by
  have hself : Text.normalizeChars (text ws) = text ws :=
    Text.normalizeChars_eq_self fun c hc => ⟨isWordChar_of_mem_text c hc, hupper c hc⟩
  rw [Text.normalize, Text.normalizeChars_eq_of_respelled hs, hself, tokenize_text h]

theorem text_token (w : Word) (position : Nat) (previous : Option Token) :
    (w.token position previous).text = String.ofList w.chars := by
  rw [token, Lexeme.token]
  obtain _ | _ | _ | _ := w.lexeme.rule <;> rfl

/-- The texts of the tokens one behind the other are the text. -/
theorem join_text_tokens (ws : List Word) (position : Nat) (previous : Option Token) :
    String.join ((tokens position previous ws).map (·.text)) = String.ofList (text ws) := by
  induction ws generalizing position previous with
  | nil => rfl
  | cons w ws ih =>
    rw [tokens, List.map_cons, String.join_cons, ih, text_token, text_cons, String.ofList_append]

end Word

/-! ### Values of formulas -/

/-- The value of a formula is that of its tokens. -/
theorem evaluate_of_tokenize (h : Token.tokenize (Text.normalize s) = .ok ts)
    (lookup : Lookup σ ε) : evaluate lookup s = Rpn.value lookup ts := by
  rw [evaluate, Rpn.ofText, h]
  rfl

/-- A formula with a value is read as tokens, and these are read into an order in which they
have this value. -/
theorem exists_of_evaluate {lookup : Lookup σ ε} {state state' : σ} {v : Value}
    (h : evaluate lookup s state = (.ok v, state')) :
    ∃ ts post, Token.tokenize (Text.normalize s) = .ok ts ∧ Rpn.ofTokens ts = .ok post ∧
      Rpn.evaluate lookup post state = (.ok v, state') := by
  cases htokens : Token.tokenize (Text.normalize s) with
  | error e =>
    rw [evaluate, Rpn.ofText, htokens] at h
    exact absurd h Evaluation.error_ne_ok
  | ok ts =>
    rw [evaluate_of_tokenize htokens, Rpn.value] at h
    cases hpost : Rpn.ofTokens ts with
    | error e =>
      rw [hpost] at h
      exact absurd h Evaluation.error_ne_ok
    | ok post =>
      rw [hpost] at h
      exact ⟨ts, post, rfl, hpost, h⟩

/-- A formula without a value cannot be read, or fails in its order of evaluation. -/
theorem error_cases_of_evaluate {lookup : Lookup σ ε} {state state' : σ} {failure : Failure ε}
    (h : evaluate lookup s state = (.error failure, state')) :
    (∃ e, Rpn.ofText s = .error e ∧ failure = .fault (.parse e) ∧ state = state') ∨
      ∃ ts post, Token.tokenize (Text.normalize s) = .ok ts ∧ Rpn.ofTokens ts = .ok post ∧
        Rpn.evaluate lookup post state = (.error failure, state') := by
  rw [evaluate] at h
  obtain h | ⟨post, state₁, hpost, h⟩ := Evaluation.error_cases_of_bind h
  · exact .inl (Evaluation.ofParse_eq_error_iff.mp h)
  · obtain ⟨hread, rfl⟩ := Evaluation.ofParse_eq_ok_iff.mp hpost
    rw [Rpn.ofText] at hread
    cases htokens : Token.tokenize (Text.normalize s) with
    | error e =>
      rw [htokens] at hread
      cases hread
    | ok ts =>
      rw [htokens] at hread
      exact .inr ⟨ts, post, rfl, hread, h⟩

end Formula
