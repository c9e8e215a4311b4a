import Formula.Proofs.Evaluate.Words
import Formula.Proofs.Lexeme.Language

/-!
# Scanning takes the longest words

`Token.Cuts` says how a text is cut into tokens, from its front: the separators are passed over,
and then comes the longest word there is, or a character with which no word begins. What a word
stands for is said by `Token.Means`; a sign is the only word for which the token in front of it
matters. Scanning cuts in this way and in no other (`Token.scanFrom_eq_iff`).

The tokens of a text are therefore slices of it that do not overlap, with nothing but separators
in between (`Token.Slices`).
-/

namespace Formula.Token

open Lexeme (IsWord Longest Spells vocabulary numbers names)

variable {position : Nat} {previous : Option Token} {w cs : List Char} {ts : List Token}
  {k : Kind} {l : Lexeme}

/-! ### What words stand for -/

/-- There is a token, and it may be the last one of an operand or separate two. -/
def FollowsOperand (previous : Option Token) : Prop :=
  ∃ t ∈ previous, t.kind = .value ∨ t.kind = .symbol ∨ t.kind = .parenthesis .closing ∨
    t.kind = .comma

/-- What a word stands for behind the given token. -/
inductive Means (previous : Option Token) (w : List Char) : Kind → Prop where
  | operator {e : Catalog.Entry} {b : Binding} (he : e ∈ Catalog.entries)
      (hw : e.symbol.toList = w) (hr : e.role = .operator b) : Means previous w (.operator b)
  | function {e : Catalog.Entry} {b : Binding} (he : e ∈ Catalog.entries)
      (hw : e.symbol.toList = w) (hr : e.role = .function b) : Means previous w (.function b)
  | parenthesis {e : Catalog.Entry} {side : Parenthesis} (he : e ∈ Catalog.entries)
      (hw : e.symbol.toList = w) (hr : e.role = .parenthesis side) :
      Means previous w (.parenthesis side)
  | comma {e : Catalog.Entry} (he : e ∈ Catalog.entries) (hw : e.symbol.toList = w)
      (hr : e.role = .comma) : Means previous w .comma
  /-- A sign behind an operand is binary. -/
  | binary {e : Catalog.Entry} {o : Operation} (he : e ∈ Catalog.entries)
      (hw : e.symbol.toList = w) (hr : e.role = .sign o) (hp : FollowsOperand previous) :
      Means previous w (.operator ⟨o, 6, .fixed 2, false⟩)
  /-- Anywhere else it is unary. -/
  | unary {e : Catalog.Entry} {o : Operation} (he : e ∈ Catalog.entries)
      (hw : e.symbol.toList = w) (hr : e.role = .sign o) (hp : ¬FollowsOperand previous) :
      Means previous w (.operator ⟨o, 3, .fixed 1, true⟩)
  | truth (hw : w = "true".toList ∨ w = "false".toList) : Means previous w .value
  | number (hw : w ∈ numbers) : Means previous w .value
  /-- A name is a variable unless it has a rule of its own. -/
  | name (hw : w ∈ names) (hfree : w ∉ vocabulary) : Means previous w .symbol

/-- A token ends an operand exactly if a sign behind it follows one. -/
private theorem any_endsOperand_iff :
    previous.any (·.endsOperand) = true ↔ FollowsOperand previous := by
  cases previous with
  | none => simp [FollowsOperand]
  | some t =>
    rw [Option.any_some, endsOperand, FollowsOperand]
    cases hk : t.kind with
    | parenthesis side => cases side <;> simp [hk]
    | value | symbol | operator b | function b | comma => simp [hk]

/-- Behind an operand a sign is binary. -/
theorem signBinding_of_followsOperand (h : FollowsOperand previous) (o : Operation) :
    Catalog.signBinding o previous = ⟨o, 6, .fixed 2, false⟩ := by
  rw [Catalog.signBinding, Catalog.signArity, if_pos (any_endsOperand_iff.mpr h)]
  rfl

/-- Anywhere else a sign is unary. -/
theorem signBinding_of_not_followsOperand (h : ¬FollowsOperand previous) (o : Operation) :
    Catalog.signBinding o previous = ⟨o, 3, .fixed 1, true⟩ := by
  rw [Catalog.signBinding, Catalog.signArity, if_neg (mt any_endsOperand_iff.mp h)]
  rfl

/-- A word with a rule of its own is not found by that for names. -/
theorem rule_of_mem_vocabulary : ∀ v ∈ vocabulary,
    (Lexeme.first? v).map (·.rule) ≠ some .identifier := by
  decide +kernel

/-- The words for truth values have rules of their own. -/
private theorem rule_of_truth : ∀ text ∈ ["true", "false"],
    (Lexeme.first? text.toList).map (·.rule) = some (.word text) := by
  decide +kernel

private theorem mem_numbers_of_rule (h : l.Spells w) (hr : l.rule = .number) : w ∈ numbers := by
  obtain ⟨-, hlength⟩ := h.length_rule
  rw [hr] at hlength
  exact Lexeme.mem_numbers_iff.mpr ⟨h.ne_nil, hlength⟩

private theorem mem_names_of_rule (h : l.Spells w) (hr : l.rule = .identifier) : w ∈ names := by
  obtain ⟨-, hlength⟩ := h.length_rule
  rw [hr] at hlength
  exact Lexeme.mem_names_iff.mpr ⟨h.ne_nil, hlength⟩

/-- The rule by which a word is found tells what it stands for. -/
theorem means_of_spells (h : l.Spells w) (text : String) (position : Nat)
    (previous : Option Token) : Means previous w (l.token text position previous).kind := by
  rw [Lexeme.token]
  cases hr : l.rule with
  | entry e =>
    obtain ⟨he, hw⟩ := h.eq_symbol hr
    simp only [Catalog.Entry.token]
    cases hrole : e.role with
    | operator b => exact .operator he hw.symm hrole
    | function b => exact .function he hw.symm hrole
    | parenthesis side => exact .parenthesis he hw.symm hrole
    | comma => exact .comma he hw.symm hrole
    | sign o =>
      by_cases hp : FollowsOperand previous
      · simp only [signBinding_of_followsOperand hp]
        exact .binary he hw.symm hrole hp
      · simp only [signBinding_of_not_followsOperand hp]
        exact .unary he hw.symm hrole hp
  | word truth =>
    obtain ⟨rfl | rfl, rfl⟩ := h.eq_word hr
    · exact .truth (.inl rfl)
    · exact .truth (.inr rfl)
  | number => exact .number (mem_numbers_of_rule h hr)
  | identifier =>
    refine .name (mem_names_of_rule h hr) fun hfree => ?_
    exact rule_of_mem_vocabulary w hfree (by rw [h.1, Option.map_some, hr])

/-- The word of an entry is found by it. -/
theorem rule_of_entry {e : Catalog.Entry} (h : l.Spells w) (he : e ∈ Catalog.entries)
    (hw : e.symbol.toList = w) : l.rule = .entry e := by
  have hfirst := Word.first?_symbol e he
  rw [hw, h.1, Option.map_some] at hfirst
  exact congrArg Prod.fst (Option.some.inj hfirst)

/-- A word has its rule from what it is. -/
theorem rule_cases (h : l.Spells w) :
    w ∈ vocabulary ∨ l.rule = .number ∧ w ∈ numbers ∨ l.rule = .identifier ∧ w ∈ names := by
  cases hr : l.rule with
  | entry e =>
    obtain ⟨he, rfl⟩ := h.eq_symbol hr
    exact .inl (List.mem_append_left _ (List.mem_map.mpr ⟨e, he, rfl⟩))
  | word truth =>
    obtain ⟨rfl | rfl, rfl⟩ := h.eq_word hr
    · exact .inl (by simp [vocabulary])
    · exact .inl (by simp [vocabulary])
  | number => exact .inr (.inl ⟨rfl, mem_numbers_of_rule h hr⟩)
  | identifier => exact .inr (.inr ⟨rfl, mem_names_of_rule h hr⟩)

/-- A word of the language of numbers is found by the rule for numbers. -/
theorem rule_of_mem_numbers (h : l.Spells w) (hw : w ∈ numbers) : l.rule = .number := by
  obtain hv | ⟨hr, -⟩ | ⟨-, hname⟩ := rule_cases h
  · exact absurd hv (Lexeme.not_mem_vocabulary_of_mem_numbers hw)
  · exact hr
  · exact absurd hname (Lexeme.not_mem_names_of_mem_numbers hw)

/-- A word of the language of names that is not in the vocabulary is found by the rule for names. -/
private theorem rule_of_mem_names (h : l.Spells w) (hw : w ∈ names) (hfree : w ∉ vocabulary) :
    l.rule = .identifier := by
  obtain hv | ⟨-, hnumber⟩ | ⟨hr, -⟩ := rule_cases h
  · exact absurd hv hfree
  · exact absurd hw (Lexeme.not_mem_names_of_mem_numbers hnumber)
  · exact hr

/-- A word stands for one thing only. -/
theorem Means.kind_eq (hk : Means previous w k) (h : l.Spells w) (text : String) (position : Nat) :
    (l.token text position previous).kind = k := by
  cases hk with
  | operator he hw hr | function he hw hr | parenthesis he hw hr | comma he hw hr =>
    rw [Lexeme.token, rule_of_entry h he hw]
    simp only [Catalog.Entry.token, hr]
  | binary he hw hr hp =>
    rw [Lexeme.token, rule_of_entry h he hw]
    simp only [Catalog.Entry.token, hr, signBinding_of_followsOperand hp]
  | unary he hw hr hp =>
    rw [Lexeme.token, rule_of_entry h he hw]
    simp only [Catalog.Entry.token, hr, signBinding_of_not_followsOperand hp]
  | truth hw =>
    have hrule : ∃ text, l.rule = .word text := by
      obtain rfl | rfl := hw
      · have hfirst := rule_of_truth "true" (by simp)
        rw [h.1] at hfirst
        exact ⟨_, Option.some.inj hfirst⟩
      · have hfirst := rule_of_truth "false" (by simp)
        rw [h.1] at hfirst
        exact ⟨_, Option.some.inj hfirst⟩
    obtain ⟨text', hrule⟩ := hrule
    rw [Lexeme.token, hrule]
  | number hw => rw [Lexeme.token, rule_of_mem_numbers h hw]
  | name hw hfree => rw [Lexeme.token, rule_of_mem_names h hw hfree]

/-! ### Cutting a text -/

/-- The tokens of the characters that stand at a position behind a token, and the error that
ends them before the characters do. -/
inductive Cuts : Nat → Option Token → List Char → List Token → Option ParseError → Prop where
  | done {position : Nat} {previous : Option Token} {cs : List Char}
      (h : cs.dropWhile isSeparator = []) : Cuts position previous cs [] none
  /-- With the next character no word begins. -/
  | stuck {position : Nat} {previous : Option Token} {cs rest : List Char} {c : Char}
      (h : cs.dropWhile isSeparator = c :: rest) (hnone : ∀ w, w <+: c :: rest → ¬IsWord w) :
      Cuts position previous cs []
        (some (.unrecognizedInput (String.singleton c)
          (position + byteLength (cs.takeWhile isSeparator))))
  /-- The longest word is cut off. -/
  | word {position place : Nat} {previous : Option Token} {cs w rest : List Char} {k : Kind}
      {ts : List Token} {error : Option ParseError} (h : cs.dropWhile isSeparator = w ++ rest)
      (hw : Longest w (w ++ rest)) (hk : Means previous w k)
      (hplace : place = position + byteLength (cs.takeWhile isSeparator))
      (hrest : Cuts (place + byteLength w) (some ⟨String.ofList w, k, place⟩) rest ts error) :
      Cuts position previous cs (⟨String.ofList w, k, place⟩ :: ts) error

variable {error : Option ParseError} {c : Char}

/-- A separator in front is passed over. -/
theorem Cuts.cons_separator (h : Cuts (position + c.utf8Size) previous cs ts error)
    (hc : isSeparator c = true) : Cuts position previous (c :: cs) ts error := by
  have hdrop : (c :: cs).dropWhile isSeparator = cs.dropWhile isSeparator :=
    List.dropWhile_cons_of_pos hc
  have htake : position + byteLength ((c :: cs).takeWhile isSeparator) =
      position + c.utf8Size + byteLength (cs.takeWhile isSeparator) := by
    rw [List.takeWhile_cons_of_pos hc, byteLength, Nat.add_assoc]
  cases h with
  | done h => exact .done (hdrop.trans h)
  | stuck h hnone =>
    rw [← htake]
    exact .stuck (hdrop.trans h) hnone
  | word h hw hk hplace hrest => exact .word (hdrop.trans h) hw hk (hplace.trans htake.symm) hrest

private theorem token_eq (l : Lexeme) (text : String) (position : Nat) (previous : Option Token) :
    l.token text position previous =
      ⟨text, (l.token text position previous).kind, position⟩ := by
  rw [Lexeme.token]
  cases l.rule <;> rfl

/-- Scanning cuts a text. -/
theorem cuts_scanFrom (position : Nat) (previous : Option Token) (cs : List Char) :
    Cuts position previous cs (scanFrom position previous cs).tokens
      (scanFrom position previous cs).error := by
  fun_induction scanFrom position previous cs with
  | case1 position previous => exact .done rfl
  | case2 position previous c cs hc ih => exact ih.cons_separator hc
  | case3 position previous c cs hc hfirst =>
    have hdrop : (c :: cs).dropWhile isSeparator = c :: cs := List.dropWhile_cons_of_neg hc
    have htake : (c :: cs).takeWhile isSeparator = [] := List.takeWhile_cons_of_neg hc
    have hstuck : Cuts position previous (c :: cs) [] (some (.unrecognizedInput
        (String.singleton c) (position + byteLength ((c :: cs).takeWhile isSeparator)))) :=
      .stuck hdrop fun w hw => Lexeme.not_isWord_of_first?_eq_none hfirst hw
    rw [htake] at hstuck
    exact hstuck
  | case4 position previous c cs hc l hfirst word t rest =>
    rename_i ih
    obtain ⟨hspells, -⟩ := Lexeme.spells_of_first? hfirst
    have hword : word ++ (c :: cs).drop l.length = c :: cs := List.take_append_drop _ _
    have hdrop : (c :: cs).dropWhile isSeparator = c :: cs := List.dropWhile_cons_of_neg hc
    have htake : (c :: cs).takeWhile isSeparator = [] := List.takeWhile_cons_of_neg hc
    have ht : t = ⟨String.ofList word, t.kind, position⟩ := token_eq l _ position previous
    have hrest : Cuts (position + byteLength word) (some ⟨String.ofList word, t.kind, position⟩)
        ((c :: cs).drop l.length) rest.tokens rest.error := by
      rw [← ht]
      exact ih
    have hlongest : Longest word (word ++ (c :: cs).drop l.length) := by
      rw [hword]
      exact Lexeme.longest_of_first? hfirst
    have hcuts := Cuts.word (hdrop.trans hword.symm) hlongest
      (means_of_spells hspells _ position previous) (by rw [htake, byteLength, Nat.add_zero]) hrest
    rw [← ht] at hcuts
    exact hcuts

private theorem isSeparator_of_dropWhile {rest : List Char}
    (h : cs.dropWhile isSeparator = c :: rest) :
    isSeparator c = false := by
  have hhead := List.head?_dropWhile_not isSeparator cs
  rw [h] at hhead
  simpa using hhead

/-- The separators in front do not matter to scanning but for the positions. -/
theorem scanFrom_dropWhile (position : Nat) (previous : Option Token) (cs : List Char) :
    scanFrom position previous cs =
      scanFrom (position + byteLength (cs.takeWhile isSeparator)) previous
        (cs.dropWhile isSeparator) := by
  induction cs generalizing position with
  | nil => rfl
  | cons c cs ih =>
    by_cases hc : isSeparator c = true
    · rw [scanFrom, if_pos hc, ih, List.takeWhile_cons_of_pos hc, List.dropWhile_cons_of_pos hc,
        byteLength, Nat.add_assoc]
    · rw [List.takeWhile_cons_of_neg hc, List.dropWhile_cons_of_neg hc, byteLength, Nat.add_zero]

/-- There is no other way to cut a text. -/
theorem Cuts.scanFrom_eq (h : Cuts position previous cs ts error) :
    scanFrom position previous cs = ⟨ts, error⟩ := by
  induction h with
  | done h => rw [scanFrom_dropWhile, h, scanFrom]
  | @stuck position previous cs rest c h hnone =>
    have hc := Bool.eq_false_iff.mp (isSeparator_of_dropWhile h)
    have hfirst : Lexeme.first? (c :: rest) = none := by
      cases hfirst : Lexeme.first? (c :: rest) with
      | none => rfl
      | some l =>
        have hlongest := Lexeme.longest_of_first? hfirst
        exact absurd hlongest.isWord (hnone _ hlongest.isPrefix)
    rw [scanFrom_dropWhile, h, scanFrom, if_neg hc, hfirst]
  | @word position place previous cs w rest k ts error h hw hk hplace hrest ih =>
    obtain ⟨l, hfirst, htake, hspells⟩ := hw.exists_first?
    have hdrop : (w ++ rest).drop l.length = rest := by rw [hspells.2, List.drop_left]
    obtain ⟨c, cs', hcs⟩ := List.exists_cons_of_ne_nil
      (List.append_ne_nil_of_left_ne_nil hspells.ne_nil rest)
    have hc := Bool.eq_false_iff.mp (isSeparator_of_dropWhile (h.trans hcs))
    have htoken : l.token (String.ofList w) place previous = ⟨String.ofList w, k, place⟩ := by
      rw [token_eq, hk.kind_eq hspells]
    rw [hcs] at hfirst htake hdrop
    rw [scanFrom_dropWhile, h, ← hplace, hcs, scanFrom, if_neg hc, hfirst]
    simp only [htake, hdrop, htoken, ih]

/-- **Scanning takes the longest words, and nothing else does.** -/
theorem scanFrom_eq_iff : scanFrom position previous cs = ⟨ts, error⟩ ↔
    Cuts position previous cs ts error := by
  refine ⟨fun h => ?_, Cuts.scanFrom_eq⟩
  have hcuts := cuts_scanFrom position previous cs
  rwa [h] at hcuts

end Formula.Token
