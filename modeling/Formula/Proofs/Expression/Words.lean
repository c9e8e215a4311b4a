import Formula.Proofs.Expression.Basic
import Formula.Proofs.Text.Spelling
import Formula.Proofs.Token.Replacement
import Formula.Proofs.Value.Literal

/-!
# The words of an expression

The text of an expression consists of words that can be told apart (`Expression.phrase_words`).
What is written with an operator is in parentheses, so that an operator has a parenthesis or a
leaf on either side; leaves consist of the characters of names, operators do not, and no
literal ends with an exponent mark, behind which a sign would belong to the literal.
-/

namespace Formula

/-! ### The words of the parts -/

/-- The symbols of operators have no character of a name in them. -/
private theorem Catalog.isNamePart_of_binding? : ∀ e ∈ entries,
    ∀ form ∈ [Binding.Form.between, .before, .behind], (e.role.binding? form).isSome = true →
      ∀ c ∈ e.symbol.toList, Lexeme.isNamePart c = false := by
  decide

/-- There are no capital letters in the catalog. -/
private theorem Catalog.isUpper_symbol :
    ∀ e ∈ entries, ∀ c ∈ e.symbol.toList, c.isUpper = false := by
  decide

/-- The operator as a word. -/
def OperatorSymbol.word {form : Binding.Form} (op : OperatorSymbol form) : Word :=
  .ofEntry op.entry op.mem

theorem OperatorSymbol.isNamePart_word {form : Binding.Form} (op : OperatorSymbol form) :
    ∀ c ∈ op.word.chars, Lexeme.isNamePart c = false := by
  have hform : form ∈ [Binding.Form.between, .before, .behind] := by
    cases form <;> decide
  exact Catalog.isNamePart_of_binding? op.entry op.mem form hform (by rw [op.role]; rfl)

theorem OperatorSymbol.isUpper_word {form : Binding.Form} (op : OperatorSymbol form) :
    ∀ c ∈ op.word.chars, c.isUpper = false :=
  Catalog.isUpper_symbol op.entry op.mem

/-- The function as a word. -/
def FunctionSymbol.word (f : FunctionSymbol) : Word := .ofEntry f.entry f.mem

/-- The symbols of functions consist of characters of names. -/
private theorem FunctionSymbol.isNamePart_word (f : FunctionSymbol) :
    ∀ c ∈ f.word.chars, Lexeme.isNamePart c = true ∧ c.isUpper = false := by
  intro c hc
  have hstart := Catalog.isNameStart_of_isFunction f.entry f.mem (by rw [f.role]; rfl) c hc
  exact ⟨Lexeme.isNamePart_of_isNameStart hstart, Catalog.isUpper_symbol f.entry f.mem c hc⟩

/-- The literal as a word. -/
def NumberLiteral.word (n : NumberLiteral) : Word := .ofFirst n.text.toList .number n.isNumber

/-- The truth value as a word. -/
def Word.boolean (b : Bool) : Word :=
  .ofFirst (if b then "true" else "false").toList (.word (if b then "true" else "false")) (by
    revert b
    decide +kernel)

/-- The comma. -/
def Word.comma : Word := .ofEntry ⟨",", .comma⟩ (by decide)

/-! ### Variables -/

/-- The first character of a variable may begin a name, and no number. -/
theorem isNameStart_of_isVariableName {c : Char} {cs : List Char}
    (h : isVariableName (c :: cs) = true) :
    Lexeme.isNameStart c = true ∧ Lexeme.isNumeric c = false ∧ c.isUpper = false := by
  rw [isVariableName, Bool.and_eq_true, Bool.or_eq_true, beq_iff_eq] at h
  obtain hc | rfl := h.1
  · have hlower := Text.isLower_iff.mp hc
    refine ⟨by simp [Lexeme.isNameStart, Text.isAlpha_of_isLower hc], ?_,
      Text.isUpper_eq_false_of_isLower hc⟩
    rw [Lexeme.isNumeric, Bool.or_eq_false_iff, beq_eq_false_iff_ne]
    refine ⟨Bool.eq_false_iff.mpr fun hdigit => ?_, ?_⟩
    · have hle : c.toNat ≤ 57 := (Char.isDigit_iff_toNat.mp hdigit).2
      omega
    · rintro rfl
      exact absurd hlower (by decide)
  · decide

/-- Behind its first character a variable has characters of names, and no capital letters. -/
private theorem isNamePart_of_isVariableName {c : Char} {cs : List Char}
    (h : isVariableName (c :: cs) = true) :
    ∀ d ∈ cs, Lexeme.isNamePart d = true ∧ d.isUpper = false := by
  intro d hd
  rw [isVariableName, Bool.and_eq_true] at h
  have hall := List.all_eq_true.mp h.2 d hd
  simp only [Bool.or_eq_true, beq_iff_eq] at hall
  obtain ((((hd | hd) | rfl) | rfl) | rfl) | rfl := hall
  · exact ⟨by simp [Lexeme.isNamePart, Char.isAlphanum, Text.isAlpha_of_isLower hd],
      Text.isUpper_eq_false_of_isLower hd⟩
  · exact ⟨by simp [Lexeme.isNamePart, Char.isAlphanum, hd],
      Text.isUpper_eq_false_of_isDigit hd⟩
  all_goals decide

/-- A variable is a word by the rule for names. -/
theorem VariableName.first?_text (x : VariableName) :
    (Lexeme.first? x.text.toList).map (fun l => (l.rule, l.length)) =
      some (.identifier, x.text.toList.length) := by
  have hname := x.isName
  rcases hx : x.text.toList with _ | ⟨c, cs⟩
  · rw [hx] at hname
    exact absurd hname (by decide)
  · rw [hx] at hname
    obtain ⟨hstart, hnumeric, -⟩ := isNameStart_of_isVariableName hname
    have hcs : cs.takeWhile Lexeme.isNamePart = cs := List.takeWhile_eq_self_iff.mpr
      fun d hd => (isNamePart_of_isVariableName hname d hd).1
    refine Lexeme.first?_of_nameLength ?_ (List.cons_ne_nil c cs)
      (Lexeme.numberLength_cons_eq_zero hnumeric) fun hmem => ?_
    · rw [Lexeme.nameLength, if_pos hstart, hcs, List.length_cons]
    · rw [← hx] at hmem
      obtain hmem | hmem := List.mem_append.mp hmem
      · obtain ⟨e, he, hsymbol⟩ := List.mem_map.mp hmem
        exact x.free e he (String.toList_inj.mp hsymbol)
      · simp only [List.mem_cons, List.not_mem_nil, or_false, String.toList_inj] at hmem
        exact hmem.elim x.ne_true x.ne_false

/-- The variable as a word. -/
def VariableName.word (x : VariableName) : Word := .ofFirst x.text.toList .identifier x.first?_text

/-! ### Phrases -/

namespace Word

/-- A character that belongs to no name may stand behind the word. -/
def Closes (w : Word) : Prop :=
  ∀ d u, Lexeme.isNamePart d = false → Lexeme.Apart w.chars (d :: u)

/-- No capital letter of ASCII is in the words. -/
def Small (ws : List Word) : Prop := ∀ c ∈ text ws, c.isUpper = false

theorem small_cons_iff {w : Word} {ws : List Word} :
    Small (w :: ws) ↔ (∀ c ∈ w.chars, c.isUpper = false) ∧ Small ws := by
  rw [Small, text_cons, List.forall_mem_append]
  exact Iff.rfl

private theorem small_append_iff {us ws : List Word} : Small (us ++ ws) ↔ Small us ∧ Small ws := by
  rw [Small, text_append, List.forall_mem_append]
  exact Iff.rfl

private theorem small_nil : Small [] := fun _ hc => absurd hc List.not_mem_nil

private theorem small_singleton_iff {w : Word} : Small [w] ↔ ∀ c ∈ w.chars, c.isUpper = false :=
  small_cons_iff.trans (and_iff_left small_nil)

/-- Words that may stand for an operand: they can be told apart from each other, from a
character before them that belongs to no name and from one behind them, and there are no
capital letters in them. -/
structure Phrase (ws : List Word) : Prop where
  cut : Cut ws
  starts : ∃ c cs, text ws = c :: cs ∧
    (Lexeme.isDelimiter c = true ∨ Lexeme.isNamePart c = true)
  closes : ∀ w ∈ ws.getLast?, Closes w
  small : Small ws

variable {ws l r : List Word} {w op : Word}

private theorem closes_closing : Closes closing := fun _ _ _ => Lexeme.apart_delimiter rfl

/-- A word of the characters of names is a phrase, unless it is a number that waits for an
exponent. -/
theorem phrase_singleton {c : Char} {cs : List Char} (hw : w.chars = c :: cs)
    (hc : Lexeme.isNamePart c = true)
    (hlast : Lexeme.isNumeric c = true → ∀ b ∈ w.chars.getLast?, b ≠ 'e')
    (hsmall : ∀ c ∈ w.chars, c.isUpper = false) : Phrase [w] where
  cut := cut_singleton w
  starts := ⟨c, cs, by rw [text_cons, text_nil, List.append_nil, hw], .inr hc⟩
  closes := by
    intro u hu d v hd
    obtain rfl : w = u := by simpa using hu
    rw [hw] at hlast ⊢
    exact Lexeme.apart_of_isNamePart hc hd hlast
  small := small_singleton_iff.mpr hsmall

private theorem small_enclosed (h : Small ws) : Small (enclosed ws) :=
  small_cons_iff.mpr
    ⟨by decide, small_append_iff.mpr ⟨h, small_singleton_iff.mpr (by decide)⟩⟩

private theorem phrase_enclosed (hcut : Cut ws) (hsmall : Small ws) : Phrase (enclosed ws) where
  cut := cut_enclosed hcut
  starts := ⟨'(', text (ws ++ [closing]), rfl, .inl rfl⟩
  closes := by
    intro u hu
    obtain rfl : closing = u := by simpa [getLast?_enclosed] using hu
    exact closes_closing
  small := small_enclosed hsmall

/-- A function with its arguments in parentheses. -/
theorem phrase_call (hw : ∀ c ∈ w.chars, Lexeme.isNamePart c = true ∧ c.isUpper = false)
    (hcut : Cut ws) (hsmall : Small ws) : Phrase (w :: enclosed ws) := by
  obtain ⟨c, cs, hc⟩ := List.exists_cons_of_ne_nil w.spells.ne_nil
  have henclosed := phrase_enclosed hcut hsmall
  refine ⟨⟨?_, henclosed.cut⟩, ⟨c, cs ++ text (enclosed ws), ?_, .inr (hw c (by simp [hc])).1⟩,
    fun u hu => ?_, small_cons_iff.mpr ⟨fun d hd => (hw d hd).2, henclosed.small⟩⟩
  · rw [text_enclosed]
    exact Lexeme.apart_of_isDelimiter w.spells.ne_nil rfl
  · rw [text_cons, hc, List.cons_append]
  · rw [List.getLast?_cons, getLast?_enclosed] at hu
    exact henclosed.closes u (by rw [getLast?_enclosed]; exact hu)

/-- An operator in front of its operand. -/
theorem cut_before (hop : ∀ c ∈ op.chars, Lexeme.isNamePart c = false) (hr : Phrase r) :
    Cut (op :: r) := by
  obtain ⟨d, ds, hd, hstarts⟩ := hr.starts
  obtain ⟨c, cs, hc⟩ := List.exists_cons_of_ne_nil op.spells.ne_nil
  refine ⟨?_, hr.cut⟩
  rw [hd]
  obtain hdelimiter | hpart := hstarts
  · exact Lexeme.apart_of_isDelimiter op.spells.ne_nil hdelimiter
  · rw [hc]
    exact Lexeme.apart_of_not_isNamePart (hop c (by simp [hc])) hpart

/-- An operator behind its operand, and perhaps another operand behind that. -/
theorem cut_behind (hl : Phrase l) (hop : ∀ c ∈ op.chars, Lexeme.isNamePart c = false)
    (hr : Cut (op :: r)) : Cut (l ++ op :: r) := by
  obtain ⟨c, cs, hc⟩ := List.exists_cons_of_ne_nil op.spells.ne_nil
  refine cut_append hl.cut hr fun u hu => ?_
  rw [text_cons, hc, List.cons_append]
  exact hl.closes u hu c _ (hop c (by simp [hc]))

end Word

/-! ### Leaves -/

theorem isUpper_of_isNumeric {c : Char} (h : Lexeme.isNumeric c = true) : c.isUpper = false := by
  rw [Lexeme.isNumeric, Bool.or_eq_true, beq_iff_eq] at h
  obtain hdigit | rfl := h
  · exact Text.isUpper_eq_false_of_isDigit hdigit
  · rfl

private theorem NumberLiteral.phrase_word (n : NumberLiteral) : Word.Phrase [n.word] := by
  obtain ⟨c, cs, hchars, hc⟩ := n.word.spells.head_of_number rfl
  -- a number does not begin with a letter, so it is no truth value
  have hfirst : ∀ text : String, Lexeme.isNumeric (text.toList.headD 'e') = false →
      n.text ≠ text := by
    rintro text htext rfl
    have hhead : n.text.toList = c :: cs := hchars
    rw [hhead] at htext
    exact Bool.eq_false_iff.mp htext hc
  refine Word.phrase_singleton hchars (Lexeme.isNamePart_of_isNumeric hc)
    (fun _ => Value.getLast?_ne_of_ofLiteral n.denotes (hfirst _ rfl) (hfirst _ rfl)) ?_
  intro d hd
  obtain hd | rfl | rfl | rfl := n.word.spells.numeric_or_mark rfl d hd
  · exact isUpper_of_isNumeric hd
  all_goals rfl

private theorem Word.phrase_boolean (b : Bool) : Phrase [boolean b] := by
  obtain _ | _ := b
  · have hchars : (boolean false).chars = 'f' :: "alse".toList := rfl
    exact phrase_singleton hchars rfl (fun h => absurd h (by decide)) (by decide)
  · have hchars : (boolean true).chars = 't' :: "rue".toList := rfl
    exact phrase_singleton hchars rfl (fun h => absurd h (by decide)) (by decide)

private theorem VariableName.phrase_word (x : VariableName) : Word.Phrase [x.word] := by
  have hname := x.isName
  rcases hx : x.text.toList with _ | ⟨c, cs⟩
  · rw [hx] at hname
    exact absurd hname (by decide)
  · rw [hx] at hname
    obtain ⟨hstart, hnumeric, hupper⟩ := isNameStart_of_isVariableName hname
    have hchars : x.word.chars = c :: cs := hx
    refine Word.phrase_singleton hchars (Lexeme.isNamePart_of_isNameStart hstart)
      (fun h => absurd h (Bool.eq_false_iff.mp hnumeric)) fun d hd => ?_
    rw [hchars] at hd
    obtain rfl | hd := List.mem_cons.mp hd
    · exact hupper
    · exact (isNamePart_of_isVariableName hname d hd).2

/-! ### The words of an expression -/

namespace Expression

mutual

/-- The words of an expression. -/
def words : Expression → List Word
  | number n => [n.word]
  | boolean b => [.boolean b]
  | name x => [x.word]
  | between op l r => Word.enclosed (l.words ++ op.word :: r.words)
  | before op e => Word.enclosed (op.word :: e.words)
  | behind op e => Word.enclosed (e.words ++ [op.word])
  | call f es => f.word :: Word.enclosed (argumentWords es)

/-- The words of several expressions with a comma between any two. -/
def argumentWords : List Expression → List Word
  | [] => []
  | [e] => e.words
  | e :: e' :: es => e.words ++ Word.comma :: argumentWords (e' :: es)

end

/-- The words of arguments write their texts, if those of each argument do. -/
theorem text_argumentWords {es : List Expression}
    (h : ∀ e ∈ es, Word.text e.words = e.render.toList) :
    Word.text (argumentWords es) = (renderArguments es).toList := by
  induction es with
  | nil => rfl
  | cons e es ih =>
    have he := h e List.mem_cons_self
    obtain _ | ⟨e', es⟩ := es
    · rw [argumentWords, renderArguments, he]
    · rw [argumentWords, renderArguments, Word.text_append, Word.text_cons, he,
        ih fun d hd => h d (List.mem_cons_of_mem _ hd), String.toList_append, String.toList_append,
        List.append_assoc]
      rfl

/-- The words of an expression write its text. -/
theorem text_words (e : Expression) : Word.text e.words = e.render.toList := by
  induction e with
  | number n => exact List.append_nil _
  | boolean b => obtain _ | _ := b <;> rfl
  | name x => exact List.append_nil _
  | between op l r hl hr => simp [words, render, hl, hr, OperatorSymbol.word, Word.chars_ofEntry]
  | before op e he => simp [words, render, he, OperatorSymbol.word, Word.chars_ofEntry]
  | behind op e he => simp [words, render, he, OperatorSymbol.word, Word.chars_ofEntry]
  | call f es hes =>
    simp [words, render, text_argumentWords hes, FunctionSymbol.word, Word.chars_ofEntry]

/-- The words of arguments can be told apart, if each of them is a phrase. -/
theorem cut_argumentWords {es : List Expression} (h : ∀ e ∈ es, Word.Phrase e.words) :
    Word.Cut (argumentWords es) ∧ Word.Small (argumentWords es) := by
  induction es with
  | nil => exact ⟨trivial, Word.small_nil⟩
  | cons e es ih =>
    have he := h e List.mem_cons_self
    obtain _ | ⟨e', es⟩ := es
    · rw [argumentWords]
      exact ⟨he.cut, he.small⟩
    · obtain ⟨hcut, hsmall⟩ := ih fun d hd => h d (List.mem_cons_of_mem _ hd)
      have hcomma : Word.Cut (Word.comma :: argumentWords (e' :: es)) :=
        ⟨Lexeme.apart_delimiter rfl, hcut⟩
      rw [argumentWords]
      exact ⟨Word.cut_append he.cut hcomma fun u _ =>
          Lexeme.apart_of_isDelimiter u.spells.ne_nil rfl,
        Word.small_append_iff.mpr ⟨he.small, Word.small_cons_iff.mpr ⟨by decide, hsmall⟩⟩⟩

/-- **The words of an expression are a phrase**: they can be told apart, and so can their
neighbours. -/
theorem phrase_words (e : Expression) : Word.Phrase e.words := by
  induction e with
  | number n => exact n.phrase_word
  | boolean b => exact Word.phrase_boolean b
  | name x => exact x.phrase_word
  | between op l r hl hr =>
    have hright := Word.cut_before op.isNamePart_word hr
    exact Word.phrase_enclosed (Word.cut_behind hl op.isNamePart_word hright)
      (Word.small_append_iff.mpr
        ⟨hl.small, Word.small_cons_iff.mpr ⟨op.isUpper_word, hr.small⟩⟩)
  | before op e he =>
    exact Word.phrase_enclosed (Word.cut_before op.isNamePart_word he)
      (Word.small_cons_iff.mpr ⟨op.isUpper_word, he.small⟩)
  | behind op e he =>
    exact Word.phrase_enclosed
      (Word.cut_behind he op.isNamePart_word (Word.cut_singleton op.word))
      (Word.small_append_iff.mpr ⟨he.small, Word.small_singleton_iff.mpr op.isUpper_word⟩)
  | call f es hes =>
    obtain ⟨hcut, hsmall⟩ := cut_argumentWords hes
    exact Word.phrase_call f.isNamePart_word hcut hsmall

end Expression

end Formula
