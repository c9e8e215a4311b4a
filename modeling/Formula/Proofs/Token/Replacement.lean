import Formula.Proofs.Rpn.Stack
import Formula.Proofs.Token.Words

/-!
# Replacing a name in a text

A name that is replaced by words in parentheses leaves the rest of a text as it was read:
parentheses stand apart from all words (`Word.cut_replaceAll`), and the tokens around the name
stay what they are, since a name and a closing parenthesis both end an operand while an opening
parenthesis does not, like the start of a text (`Word.tokens_replaceAll`).

In a text without separators a function has no operand directly behind it, for that would go on
with the name of the function (`Word.isChain_tokens`).
-/

namespace Formula

/-! ### Tokens up to their positions -/

/-- A sign is settled by whether the token before it ends an operand. -/
private theorem Catalog.signBinding_congr {previous previous' : Option Token}
    (h : previous.any (·.endsOperand) = previous'.any (·.endsOperand)) (operation : Operation) :
    signBinding operation previous = signBinding operation previous' := by
  rw [signBinding, signBinding, signArity, signArity, h]

/-- What a word stands for depends on the token before it only in whether this ends an
operand. -/
theorem Lexeme.unplaced_token {previous previous' : Option Token}
    (h : previous.any (·.endsOperand) = previous'.any (·.endsOperand)) (l : Lexeme)
    (text : String) (position position' : Nat) :
    (l.token text position previous).unplaced = (l.token text position' previous').unplaced := by
  rw [token, token]
  obtain ⟨symbol, role⟩ | _ | _ | _ := l.rule
  case entry =>
    simp only [Catalog.Entry.token, Token.unplaced, Catalog.signBinding_congr h]
  all_goals rfl

private theorem Token.endsOperand_unplaced (t : Token) :
    t.unplaced.endsOperand = t.endsOperand := rfl

namespace Word

/-- Up to its position the token of a word depends on the one before only in whether that ends an
operand. -/
private theorem unplaced_token {previous previous' : Option Token}
    (h : previous.any (·.endsOperand) = previous'.any (·.endsOperand)) (w : Word)
    (position position' : Nat) :
    (w.token position previous).unplaced = (w.token position' previous').unplaced :=
  w.lexeme.unplaced_token h _ position position'

private theorem endsOperand_token {previous previous' : Option Token}
    (h : previous.any (·.endsOperand) = previous'.any (·.endsOperand)) (w : Word)
    (position position' : Nat) :
    (some (w.token position previous)).any (·.endsOperand) =
      (some (w.token position' previous')).any (·.endsOperand) := by
  rw [Option.any_some, Option.any_some, ← Token.endsOperand_unplaced,
    w.unplaced_token h position position', Token.endsOperand_unplaced]

/-- Nor do the positions and the token before matter to a row of words in any other way. -/
private theorem unplaced_tokens {previous previous' : Option Token}
    (h : previous.any (·.endsOperand) = previous'.any (·.endsOperand)) (ws : List Word)
    (position position' : Nat) :
    (tokens position previous ws).map Token.unplaced =
      (tokens position' previous' ws).map Token.unplaced := by
  induction ws generalizing position position' previous previous' with
  | nil => rfl
  | cons w ws ih =>
    rw [tokens, tokens, List.map_cons, List.map_cons, w.unplaced_token h position position',
      ih (w.endsOperand_token h position position')]

/-! ### Parentheses -/

/-- The opening parenthesis. -/
def opening : Word := ofEntry ⟨"(", .parenthesis .opening⟩ (by decide)

/-- The closing parenthesis. -/
def closing : Word := ofEntry ⟨")", .parenthesis .closing⟩ (by decide)

/-- Words in parentheses. -/
def enclosed (ws : List Word) : List Word := opening :: (ws ++ [closing])

@[simp]
theorem text_enclosed (ws : List Word) : text (enclosed ws) = '(' :: (text ws ++ [')']) := by
  rw [enclosed, text_cons, text_append]
  rfl

theorem getLast?_enclosed (ws : List Word) : (enclosed ws).getLast? = some closing := by
  rw [enclosed, ← List.cons_append, List.getLast?_concat]

private theorem token_opening (position : Nat) (previous : Option Token) :
    opening.token position previous = ⟨"(", .parenthesis .opening, position⟩ := by
  rw [opening, token_ofEntry]
  rfl

private theorem token_closing (position : Nat) (previous : Option Token) :
    closing.token position previous = ⟨")", .parenthesis .closing, position⟩ := by
  rw [closing, token_ofEntry]
  rfl

/-- The tokens of words in parentheses. -/
theorem exists_tokens_enclosed (ws : List Word) (position : Nat) (previous : Option Token) :
    ∃ position', tokens position previous (enclosed ws) =
      ⟨"(", .parenthesis .opening, position⟩ ::
        (tokens (position + 1) (some ⟨"(", .parenthesis .opening, position⟩) ws ++
          [⟨")", .parenthesis .closing, position'⟩]) := by
  rw [enclosed, tokens, tokens_append, tokens, tokens, token_opening, token_closing]
  exact ⟨_, rfl⟩

theorem cut_singleton (w : Word) : Cut [w] := ⟨Lexeme.apart_nil w.chars, trivial⟩

/-- Words in parentheses can be told apart if they can be without. -/
theorem cut_enclosed {ws : List Word} (h : Cut ws) : Cut (enclosed ws) := by
  have hclosing : Cut (ws ++ [closing]) := cut_append h (cut_singleton closing)
    fun w _ => Lexeme.apart_of_isDelimiter w.spells.ne_nil rfl
  exact ⟨Lexeme.apart_delimiter rfl, hclosing⟩

/-! ### Names -/

end Word

/-- Is the token the given name? -/
def Token.isNamed (name : String) (t : Token) : Bool :=
  decide (t.kind = .symbol ∧ t.text = name)

namespace Word

/-- Is the word the given name? -/
def isNamed (name : String) (w : Word) : Bool := (w.token 0 none).isNamed name

/-- A word is a name wherever it stands. -/
theorem isNamed_token (name : String) (w : Word) (position : Nat) (previous : Option Token) :
    (w.token position previous).isNamed name = w.isNamed name := by
  rw [isNamed, token, token, Lexeme.token, Lexeme.token]
  obtain ⟨symbol, role⟩ | _ | _ | _ := w.lexeme.rule
  case entry => obtain _ | _ | _ | _ | _ := role <;> simp [Token.isNamed, Catalog.Entry.token]
  all_goals rfl

private theorem endsOperand_of_isNamed {name : String} {t : Token} (h : t.isNamed name = true) :
    t.endsOperand = true := by
  rw [Token.isNamed, decide_eq_true_iff] at h
  rw [Token.endsOperand, h.1]

variable {p : Word → Bool} {vs ws : List Word}

/-- A text begins with the same character when words in it are enclosed, or with a
parenthesis. -/
theorem head_text_replaceAll :
    ∀ d ∈ (text (replaceAll p (enclosed vs) ws)).head?,
      Lexeme.isDelimiter d = true ∨ (text ws).head? = some d := by
  intro d hd
  obtain _ | ⟨w, ws⟩ := ws
  · exact absurd hd (by simp [replaceAll])
  · rw [replaceAll_cons] at hd
    by_cases hw : p w = true
    · rw [if_pos hw, enclosed, List.cons_append, text_cons] at hd
      obtain rfl : '(' = d := Option.some.inj hd
      exact .inl rfl
    · obtain ⟨c, cs, hc⟩ := List.exists_cons_of_ne_nil w.spells.ne_nil
      rw [if_neg hw, List.singleton_append, text_cons, hc] at hd
      rw [text_cons, hc]
      exact .inr hd

/-- **Words in parentheses may take the place of words**: all of them can still be told
apart. -/
theorem cut_replaceAll (hvs : Cut vs) (hws : Cut ws) :
    Cut (replaceAll p (enclosed vs) ws) := by
  induction ws with
  | nil => trivial
  | cons w ws ih =>
    obtain ⟨hapart, hcut⟩ := hws
    rw [replaceAll_cons]
    by_cases hw : p w = true
    · rw [if_pos hw]
      refine cut_append (cut_enclosed hvs) (ih hcut) fun u hu => ?_
      obtain rfl : closing = u := by simpa [getLast?_enclosed] using hu
      exact Lexeme.apart_delimiter rfl
    · rw [if_neg hw]
      refine cut_append (cut_singleton w) (ih hcut) fun u hu => ?_
      obtain rfl : w = u := by simpa using hu
      exact apart_of_head hapart head_text_replaceAll

/-- What a text consists of when words in it are enclosed. -/
theorem mem_text_replaceAll {c : Char} (hc : c ∈ text (replaceAll p (enclosed vs) ws)) :
    c ∈ text ws ∨ c ∈ text vs ∨ c = '(' ∨ c = ')' := by
  obtain ⟨u, hu, hc⟩ := List.mem_flatMap.mp hc
  obtain ⟨w, hw, hu⟩ := List.mem_flatMap.mp hu
  by_cases hp : p w = true
  · rw [if_pos hp, enclosed, List.mem_cons, List.mem_append, List.mem_singleton] at hu
    obtain rfl | hu | rfl := hu
    · exact .inr (.inr (.inl (List.mem_singleton.mp hc)))
    · exact .inr (.inl (List.mem_flatMap.mpr ⟨u, hu, hc⟩))
    · exact .inr (.inr (.inr (List.mem_singleton.mp hc)))
  · rw [if_neg hp, List.mem_singleton] at hu
    exact .inl (List.mem_flatMap.mpr ⟨w, hw, hu ▸ hc⟩)

end Word

/-- Tokens in parentheses. -/
def Token.enclosed (ts : List Token) : List Token :=
  ⟨"(", .parenthesis .opening, 0⟩ :: (ts ++ [⟨")", .parenthesis .closing, 0⟩])

namespace Word

/-- **The tokens of a text with a name replaced are its tokens with the name replaced**, up to
positions. -/
theorem tokens_replaceAll {previous previous' : Option Token} (name : String)
    (h : previous.any (·.endsOperand) = previous'.any (·.endsOperand)) (vs ws : List Word)
    (position position' : Nat) :
    (tokens position' previous' (replaceAll (isNamed name) (enclosed vs) ws)).map
        Token.unplaced =
      (replaceAll (Token.isNamed name) (Token.enclosed (tokens 0 none vs))
        (tokens position previous ws)).map Token.unplaced := by
  induction ws generalizing position position' previous previous' with
  | nil => rfl
  | cons w ws ih =>
    rw [replaceAll_cons, tokens, replaceAll_cons, isNamed_token]
    by_cases hw : w.isNamed name = true
    · have hrest : enclosed vs ++ replaceAll (isNamed name) (enclosed vs) ws =
          opening :: (vs ++ closing :: replaceAll (isNamed name) (enclosed vs) ws) := by
        simp [enclosed]
      have hends : (some (w.token position previous)).any (·.endsOperand) = true := by
        rw [Option.any_some, endsOperand_of_isNamed]
        exact (isNamed_token name w position previous).trans hw
      -- inside of the parentheses it is as at the start of a text, and behind them as behind
      -- the name
      have hgroup : ∀ k o, (some o).any (·.endsOperand) = false →
          (tokens k (some o) vs).map Token.unplaced = (tokens 0 none vs).map Token.unplaced :=
        fun k o ho => unplaced_tokens ho vs k 0
      have hbehind : ∀ k c, (some c).any (·.endsOperand) = true →
          (tokens k (some c) (replaceAll (isNamed name) (enclosed vs) ws)).map Token.unplaced = _ :=
        fun k c hc => ih (hends.trans hc.symm) (position + Token.byteLength w.chars) k
      rw [if_pos hw, if_pos hw, hrest, tokens, tokens_append, tokens, token_opening,
        token_closing, List.map_cons, List.map_append, List.map_cons, hgroup _ _ rfl,
        hbehind _ _ rfl]
      simp only [Token.enclosed, List.map_append, List.map_cons, List.cons_append,
        List.append_assoc]
      rfl
    · rw [if_neg hw, if_neg hw, List.singleton_append, tokens, List.map_cons,
        List.singleton_append, List.map_cons, w.unplaced_token h position position',
        ih (w.endsOperand_token h position position')]

end Word

/-! ### Functions -/

/-- Does the symbol stand for a function? -/
def Catalog.Role.isFunction : Role → Bool
  | function _ => true
  | operator _ | sign _ | parenthesis _ | comma => false

/-- The symbols of functions are names. -/
theorem Catalog.isNameStart_of_isFunction : ∀ e ∈ entries, e.role.isFunction = true →
    ∀ c ∈ e.symbol.toList, Lexeme.isNameStart c = true := by
  decide

private theorem Catalog.Entry.isFunction_token (e : Entry) (text : String) (position : Nat)
    (previous : Option Token) :
    (e.token text position previous).isFunction = e.role.isFunction := by
  obtain ⟨symbol, role⟩ := e
  obtain _ | _ | _ | _ | _ := role <;> rfl

/-- A name reaches on over the characters of names. -/
theorem Lexeme.not_apart {w u : List Char} {d : Char} (hne : w ≠ [])
    (hw : ∀ c ∈ w, isNameStart c = true) (hd : isNamePart d = true) : ¬Apart w (d :: u) := by
  intro h
  obtain ⟨c, cs, rfl⟩ := List.exists_cons_of_ne_nil hne
  have hle := h .identifier (by simp [rules])
  have hcs : ∀ b ∈ cs, isNamePart b = true :=
    fun b hb => isNamePart_of_isNameStart (hw b (List.mem_cons_of_mem _ hb))
  rw [Rule.length, List.cons_append, nameLength, if_pos (hw c List.mem_cons_self),
    List.takeWhile_append_of_pos hcs, List.takeWhile_cons_of_pos hd, List.length_append,
    List.length_cons, List.length_cons] at hle
  omega

namespace Word

variable {w : Word} {position : Nat} {previous : Option Token}

private theorem isNameStart_of_isFunction (h : (w.token position previous).isFunction = true) :
    ∀ c ∈ w.chars, Lexeme.isNameStart c = true := by
  rw [token, Lexeme.token] at h
  rcases hr : w.lexeme.rule with e | _ | _ | _
  case entry =>
    obtain ⟨he, hchars⟩ := w.spells.eq_symbol hr
    rw [hr] at h
    rw [hchars]
    exact Catalog.isNameStart_of_isFunction e he
      ((e.isFunction_token _ position previous).symm.trans h)
  all_goals
    rw [hr] at h
    exact Bool.noConfusion h

/-- A literal, a name and a function begin with a character of names. -/
theorem isNamePart_of_startsOperand (h : (w.token position previous).startsOperand = true) :
    ∃ c cs, w.chars = c :: cs ∧ Lexeme.isNamePart c = true := by
  rcases hr : w.lexeme.rule with e | word | _ | _
  · have hf : (w.token position previous).isFunction = true := by
      rw [token, Lexeme.token, hr] at h ⊢
      obtain ⟨symbol, role⟩ := e
      obtain _ | _ | _ | _ | _ := role
      case function => rfl
      all_goals exact Bool.noConfusion h
    obtain ⟨c, cs, hc⟩ := List.exists_cons_of_ne_nil w.spells.ne_nil
    exact ⟨c, cs, hc, Lexeme.isNamePart_of_isNameStart
      (isNameStart_of_isFunction hf c (by simp [hc]))⟩
  · obtain ⟨hword, hchars⟩ := w.spells.eq_word hr
    obtain rfl | rfl := hword
    · exact ⟨'t', _, hchars, rfl⟩
    · exact ⟨'f', _, hchars, rfl⟩
  · obtain ⟨c, cs, hchars, hc⟩ := w.spells.head_of_number hr
    exact ⟨c, cs, hchars, Lexeme.isNamePart_of_isNumeric hc⟩
  · obtain ⟨c, cs, hchars, hc⟩ := w.spells.head_of_identifier hr
    exact ⟨c, cs, hchars, Lexeme.isNamePart_of_isNameStart hc⟩

/-- **No operand stands directly behind a function** in a text without separators. -/
theorem isChain_tokens {ws : List Word} (h : Cut ws) (position : Nat)
    (previous : Option Token) : (tokens position previous ws).IsChain Token.Adjoins := by
  induction ws generalizing position previous with
  | nil => exact .nil
  | cons w ws ih =>
    obtain ⟨hapart, hcut⟩ := h
    rw [tokens]
    refine (ih hcut _ _).cons fun t ht hf => ?_
    obtain _ | ⟨u, ws⟩ := ws
    · exact absurd ht (by simp [tokens])
    · obtain rfl : u.token _ _ = t := Option.some.inj ht
      refine Bool.eq_false_iff.mpr fun hstarts => ?_
      obtain ⟨c, cs, hc, hpart⟩ := isNamePart_of_startsOperand hstarts
      rw [text_cons, hc] at hapart
      exact Lexeme.not_apart w.spells.ne_nil (isNameStart_of_isFunction hf) hpart hapart

end Word

end Formula
