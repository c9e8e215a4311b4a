import Formula.Proofs.Lexeme.Boundary
import Formula.Token.Scan

/-!
# Scanning as the undoing of spelling

A `Word` is a row of characters together with the lexeme that it spells. Written one behind the
other, words can be told apart again if each of them stands apart from the next
(`Word.Cut`), and then scanning finds exactly their tokens (`Word.scanFrom_text`). There is
nothing else that scanning accepts, separators between words aside
(`Word.exists_cut_of_scanFrom`).

Words consist of few characters (`Lexeme.isWordChar`), and separators are not among these.
-/

namespace Formula

/-! ### The characters of words -/

namespace Lexeme

/-- May the character stand in a word? -/
def isWordChar (c : Char) : Bool := isNamePart c || vocabulary.flatten.contains c

private theorem isWordChar_of_isNamePart {c : Char} (h : isNamePart c = true) :
    isWordChar c = true := by
  rw [isWordChar, h, Bool.true_or]

/-- The characters of the vocabulary may stand in words. -/
theorem isWordChar_of_mem {c : Char} (h : c ∈ vocabulary.flatten) : isWordChar c = true := by
  rw [isWordChar, List.contains_iff_mem.mpr h, Bool.or_true]

variable {l : Lexeme} {w : List Char}

/-- The rule of a spelled word takes all of it. -/
theorem Spells.length_rule (h : l.Spells w) : l.rule ∈ rules ∧ l.rule.length w = w.length := by
  obtain ⟨⟨hmem, hlength⟩, -⟩ := length_le_of_longest? h.1
  exact ⟨hmem, hlength.trans h.2⟩

/-- A word that the rule for another one takes whole is that one. -/
theorem eq_of_wordLength {v : List Char} (h : wordLength v w = w.length) (hw : w ≠ []) :
    w = v := by
  by_cases hfront : v <+: w
  · rw [wordLength_eq_length hfront] at h
    exact (hfront.eq_of_length h).symm
  · rw [wordLength_eq_zero hfront] at h
    exact absurd (List.eq_nil_of_length_eq_zero h.symm) hw

private theorem eq_of_numberNext {s s' : NumberState} {c : Char} (h : numberNext s c = some s') :
    isNumeric c = true ∨ c = 'e' ∨ c = '+' ∨ c = '-' := by
  by_contra hc
  simp only [not_or, Bool.not_eq_true] at hc
  rw [numberNext_eq_none hc.1 hc.2.1 hc.2.2.1 hc.2.2.2] at h
  exact absurd h (by simp)

theorem isWordChar_of_numberNext {s s' : NumberState} {c : Char}
    (h : numberNext s c = some s') : isWordChar c = true := by
  obtain hc | rfl | rfl | rfl := eq_of_numberNext h
  · exact isWordChar_of_isNamePart (isNamePart_of_isNumeric hc)
  all_goals decide

theorem isWordChar_of_nameNext {s s' : Bool} {c : Char} (h : nameNext s c = some s') :
    isWordChar c = true := by
  refine isWordChar_of_isNamePart (Bool.not_eq_false _ ▸ fun hc => ?_)
  rw [nameNext_eq_none hc] at h
  exact absurd h (by simp)

/-- A word consists of the characters of words. -/
theorem Spells.isWordChar (h : l.Spells w) : ∀ c ∈ w, isWordChar c = true := by
  obtain ⟨hrule, hlength⟩ := h.length_rule
  intro c hc
  obtain ⟨v, hv, hl⟩ | hl | hl := length_of_mem_rules hrule
  · rw [hl] at hlength
    have hw : w = v := eq_of_wordLength hlength h.ne_nil
    exact isWordChar_of_mem (List.mem_flatten.mpr ⟨v, hv, hw ▸ hc⟩)
  · rw [hl, numberLength_eq_reach] at hlength
    obtain ⟨s, s', hs⟩ := exists_next_of_reach_eq hlength c hc
    exact isWordChar_of_numberNext hs
  · rw [hl, nameLength_eq_reach] at hlength
    obtain ⟨s, s', hs⟩ := exists_next_of_reach_eq hlength c hc
    exact isWordChar_of_nameNext hs

/-- A word by the rule of an entry is its symbol. -/
theorem Spells.eq_symbol {e : Catalog.Entry} (h : l.Spells w) (hr : l.rule = .entry e) :
    e ∈ Catalog.entries ∧ w = e.symbol.toList := by
  obtain ⟨hrule, hlength⟩ := h.length_rule
  rw [hr] at hrule hlength
  exact ⟨by simpa [rules] using hrule, eq_of_wordLength hlength h.ne_nil⟩

theorem Spells.eq_word {text : String} (h : l.Spells w) (hr : l.rule = .word text) :
    (text = "true" ∨ text = "false") ∧ w = text.toList := by
  obtain ⟨hrule, hlength⟩ := h.length_rule
  rw [hr] at hrule hlength
  exact ⟨by simpa [rules] using hrule, eq_of_wordLength hlength h.ne_nil⟩

/-- A number begins with a digit or a point. -/
theorem Spells.head_of_number (h : l.Spells w) (hr : l.rule = .number) :
    ∃ c cs, w = c :: cs ∧ isNumeric c = true := by
  obtain ⟨-, hlength⟩ := h.length_rule
  obtain ⟨c, cs, rfl⟩ := List.exists_cons_of_ne_nil h.ne_nil
  refine ⟨c, cs, rfl, Bool.not_eq_false _ ▸ fun hc => ?_⟩
  rw [hr, Rule.length, numberLength_cons_eq_zero hc] at hlength
  exact absurd hlength (Nat.succ_ne_zero _).symm

/-- A number consists of digits, points, exponent marks and signs. -/
theorem Spells.numeric_or_mark (h : l.Spells w) (hr : l.rule = .number) :
    ∀ c ∈ w, isNumeric c = true ∨ c = 'e' ∨ c = '+' ∨ c = '-' := by
  obtain ⟨-, hlength⟩ := h.length_rule
  rw [hr, Rule.length, numberLength_eq_reach] at hlength
  intro c hc
  obtain ⟨s, s', hs⟩ := exists_next_of_reach_eq hlength c hc
  exact eq_of_numberNext hs

theorem Spells.head_of_identifier (h : l.Spells w) (hr : l.rule = .identifier) :
    ∃ c cs, w = c :: cs ∧ isNameStart c = true := by
  obtain ⟨-, hlength⟩ := h.length_rule
  obtain ⟨c, cs, rfl⟩ := List.exists_cons_of_ne_nil h.ne_nil
  refine ⟨c, cs, rfl, Bool.not_eq_false _ ▸ fun hc => ?_⟩
  rw [hr, Rule.length, nameLength_cons_eq_zero hc] at hlength
  exact absurd hlength (Nat.succ_ne_zero _).symm

/-- A name that no other rule takes is a word by the rule for names. -/
theorem first?_of_nameLength (hlength : nameLength w = w.length) (hne : w ≠ [])
    (hnumber : numberLength w = 0) (hfree : w ∉ vocabulary) :
    (first? w).map (fun l => (l.rule, l.length)) = some (.identifier, w.length) := by
  have hpos : 0 < w.length := List.length_pos_iff.mpr hne
  have hmem : Rule.identifier ∈ rules := by simp [rules]
  rcases hfirst : first? w with _ | l
  · have hzero := length_eq_zero_of_longest? hfirst .identifier hmem
    rw [Rule.length, hlength] at hzero
    omega
  · obtain ⟨⟨-, hl⟩, hle⟩ := length_le_of_longest? hfirst
    have hge := hle .identifier hmem
    rw [Rule.length, hlength] at hge
    have hwhole : l.length = w.length := Nat.le_antisymm (hl ▸ l.rule.length_le w) hge
    have hspells : l.Spells w := ⟨hfirst, hwhole⟩
    rcases hr : l.rule with e | text | _ | _
    · obtain ⟨he, hw⟩ := hspells.eq_symbol hr
      refine absurd ?_ hfree
      exact List.mem_append_left _ (List.mem_map.mpr ⟨e, he, hw.symm⟩)
    · obtain ⟨htext, hw⟩ := hspells.eq_word hr
      refine absurd ?_ hfree
      obtain rfl | rfl := htext <;> simp [vocabulary, hw]
    · rw [hr, Rule.length, hnumber] at hl
      omega
    · rw [Option.map_some, hr, hwhole]

theorem isSeparator_eq_false {c : Char} (h : isWordChar c = true) :
    Token.isSeparator c = false := by
  rw [Bool.eq_false_iff]
  intro hc
  simp only [Token.isSeparator, Bool.or_eq_true, beq_iff_eq] at hc
  obtain (((rfl | rfl) | rfl) | rfl) | rfl := hc <;> exact absurd h (by decide)

end Lexeme

/-! ### Words and their tokens -/

/-- Characters that spell a lexeme. -/
structure Word where
  chars : List Char
  lexeme : Lexeme
  spells : lexeme.Spells chars

namespace Word

/-- The token that the word makes behind the given token. -/
def token (w : Word) (position : Nat) (previous : Option Token) : Token :=
  w.lexeme.token (String.ofList w.chars) position previous

/-- The characters of words with nothing in between. -/
def text (ws : List Word) : List Char := ws.flatMap (·.chars)

/-- The tokens of words that stand one behind the other at a position behind a token. -/
def tokens (position : Nat) (previous : Option Token) : List Word → List Token
  | [] => []
  | w :: ws =>
    let t := w.token position previous
    t :: tokens (position + Token.byteLength w.chars) (some t) ws

/-- Every one of the words stands apart from what follows it. -/
def Cut : List Word → Prop
  | [] => True
  | w :: ws => Lexeme.Apart w.chars (text ws) ∧ Cut ws

@[simp]
theorem text_nil : text [] = [] := rfl

@[simp]
theorem text_cons (w : Word) (ws : List Word) : text (w :: ws) = w.chars ++ text ws := rfl

@[simp]
theorem text_append (us ws : List Word) : text (us ++ ws) = text us ++ text ws :=
  List.flatMap_append

/-- The text of words consists of characters of words. -/
theorem isWordChar_of_mem_text {ws : List Word} :
    ∀ c ∈ text ws, Lexeme.isWordChar c = true := by
  intro c hc
  obtain ⟨w, -, hc⟩ := List.mem_flatMap.mp hc
  exact w.spells.isWordChar c hc

theorem byteLength_append (cs ds : List Char) :
    Token.byteLength (cs ++ ds) = Token.byteLength cs + Token.byteLength ds := by
  induction cs with
  | nil => rw [List.nil_append, Token.byteLength, Nat.zero_add]
  | cons c cs ih =>
    rw [List.cons_append, Token.byteLength, Token.byteLength, ih, Nat.add_assoc]

/-- The tokens of words in two parts. -/
theorem tokens_append (us ws : List Word) (position : Nat) (previous : Option Token) :
    tokens position previous (us ++ ws) = tokens position previous us ++
      tokens (position + Token.byteLength (text us))
        ((tokens position previous us).getLast?.or previous) ws := by
  induction us generalizing position previous with
  | nil => simp [tokens, Token.byteLength]
  | cons u us ih =>
    -- the last token of both parts, and the position behind the first part
    have hlast : ((tokens (position + Token.byteLength u.chars)
          (some (u.token position previous)) us).getLast?.or (some (u.token position previous))) =
        (tokens position previous (u :: us)).getLast?.or previous := by
      rw [tokens, List.getLast?_cons]
      obtain _ | t := (tokens _ _ us).getLast? <;> rfl
    have hlength : position + Token.byteLength u.chars + Token.byteLength (text us) =
        position + Token.byteLength (text (u :: us)) := by
      rw [text_cons, byteLength_append, Nat.add_assoc]
    rw [List.cons_append, tokens, ih, hlast, hlength, tokens, List.cons_append]

private theorem text_ne_nil (w : Word) (ws : List Word) : text (w :: ws) ≠ [] := by
  rw [text_cons]
  exact fun h => w.spells.ne_nil (List.append_eq_nil_iff.mp h).1

/-- What a word stands apart from depends on the first character alone. -/
theorem apart_of_head {w : Word} {u v : List Char} (h : Lexeme.Apart w.chars u)
    (hv : ∀ d ∈ v.head?, Lexeme.isDelimiter d = true ∨ u.head? = some d) :
    Lexeme.Apart w.chars v := by
  obtain _ | ⟨d, v⟩ := v
  · exact Lexeme.apart_nil w.chars
  · obtain hd | hd := hv d rfl
    · exact Lexeme.apart_of_isDelimiter w.spells.ne_nil hd
    · obtain ⟨u, rfl⟩ := List.head?_eq_some_iff.mp hd
      rw [Lexeme.apart_cons_iff w.spells.ne_nil] at h ⊢
      exact h

/-- Words that can be told apart, with others behind from which the last one stands apart. -/
theorem cut_append {us ws : List Word} (hus : Cut us) (hws : Cut ws)
    (hlast : ∀ u ∈ us.getLast?, Lexeme.Apart u.chars (text ws)) : Cut (us ++ ws) := by
  induction us with
  | nil => exact hws
  | cons u us ih =>
    obtain ⟨hapart, hcut⟩ := hus
    obtain _ | ⟨v, us⟩ := us
    · exact ⟨hlast u rfl, hws⟩
    · have hhead : (text (v :: us ++ ws)).head? = (text (v :: us)).head? := by
        obtain ⟨c, cs, hcs⟩ := List.exists_cons_of_ne_nil (text_ne_nil v us)
        rw [text_append, hcs]
        rfl
      exact ⟨apart_of_head hapart fun d hd => .inr (hhead ▸ hd), ih hcut (by simpa using hlast)⟩

/-! ### Words by their rules -/

section OfFirst

variable {chars : List Char} {r : Lexeme.Rule}

private theorem length_pos_of_first?
    (h : (Lexeme.first? chars).map (fun l => (l.rule, l.length)) = some (r, chars.length)) :
    0 < chars.length := by
  obtain ⟨l, -, hl⟩ := Option.map_eq_some_iff.mp h
  obtain ⟨-, hlength⟩ := Prod.mk.inj hl
  exact hlength ▸ l.length_pos

/-- The characters as a word if they are found whole by the given rule. -/
def ofFirst (chars : List Char) (r : Lexeme.Rule)
    (h : (Lexeme.first? chars).map (fun l => (l.rule, l.length)) = some (r, chars.length)) :
    Word where
  chars := chars
  lexeme := ⟨r, chars.length, length_pos_of_first? h⟩
  spells := by
    obtain ⟨⟨r', n, hn⟩, hfirst, hl⟩ := Option.map_eq_some_iff.mp h
    obtain ⟨rfl, rfl⟩ := Prod.mk.inj hl
    exact ⟨hfirst, rfl⟩

end OfFirst

/-- Every symbol of the catalog is a word by the rule of its own entry. -/
theorem first?_symbol : ∀ e ∈ Catalog.entries,
    (Lexeme.first? e.symbol.toList).map (fun l => (l.rule, l.length)) =
      some (.entry e, e.symbol.toList.length) := by
  decide +kernel

/-- A symbol of the catalog as a word. -/
def ofEntry (e : Catalog.Entry) (he : e ∈ Catalog.entries) : Word :=
  ofFirst e.symbol.toList (.entry e) (first?_symbol e he)

theorem chars_ofEntry {e : Catalog.Entry} (he : e ∈ Catalog.entries) :
    (ofEntry e he).chars = e.symbol.toList := rfl

@[simp]
theorem token_ofEntry {e : Catalog.Entry} (he : e ∈ Catalog.entries) (position : Nat)
    (previous : Option Token) :
    (ofEntry e he).token position previous = e.token e.symbol position previous := by
  rw [token, Lexeme.token, ofEntry, ofFirst, String.ofList_toList]

/-! ### Scanning words -/

/-- **Scanning finds the tokens of the words that a text consists of.** -/
theorem scanFrom_text {ws : List Word} (h : Cut ws) (position : Nat) (previous : Option Token) :
    Token.scanFrom position previous (text ws) = ⟨tokens position previous ws, none⟩ := by
  induction ws generalizing position previous with
  | nil => rw [text_nil, Token.scanFrom, tokens]
  | cons w ws ih =>
    obtain ⟨hapart, hcut⟩ := h
    obtain ⟨c, cs, hchars⟩ := List.exists_cons_of_ne_nil w.spells.ne_nil
    -- the scan stands at the front of a word, which is cut off because it stands apart
    have hseparator : ¬Token.isSeparator c = true := Bool.eq_false_iff.mp
      (Lexeme.isSeparator_eq_false (w.spells.isWordChar c (by simp [hchars])))
    have hfirst : Lexeme.first? (c :: (cs ++ text ws)) = some w.lexeme := by
      rw [← List.cons_append, ← hchars]
      exact Lexeme.first?_append w.spells hapart
    have htake : (c :: (cs ++ text ws)).take w.lexeme.length = w.chars := by
      rw [← List.cons_append, ← hchars, w.spells.2, List.take_left]
    have hdrop : (c :: (cs ++ text ws)).drop w.lexeme.length = text ws := by
      rw [← List.cons_append, ← hchars, w.spells.2, List.drop_left]
    rw [text_cons, hchars, List.cons_append, Token.scanFrom, if_neg hseparator, hfirst]
    simp only [htake, hdrop, ih hcut, tokens, token]

/-- A text without separators that is scanned to its end consists of words. -/
theorem exists_cut_of_scanFrom {cs : List Char} {position : Nat} {previous : Option Token}
    {ts : List Token} (hcs : ∀ c ∈ cs, Token.isSeparator c = false)
    (h : Token.scanFrom position previous cs = ⟨ts, none⟩) :
    ∃ ws, Cut ws ∧ text ws = cs ∧ tokens position previous ws = ts := by
  fun_induction Token.scanFrom position previous cs generalizing ts with
  | case1 position previous =>
    obtain rfl : [] = ts := congrArg Token.Scanned.tokens h
    exact ⟨[], trivial, rfl, rfl⟩
  | case2 position previous c cs hc _ =>
    exact absurd hc (Bool.eq_false_iff.mp (hcs c List.mem_cons_self))
  | case3 position previous c cs _ hfirst =>
    exact absurd (congrArg Token.Scanned.error h) (by simp)
  | case4 position previous c cs _ l hfirst word t rest =>
    rename_i ih
    obtain ⟨hspells, hapart⟩ := Lexeme.spells_of_first? hfirst
    have herror : rest.error = none := congrArg Token.Scanned.error h
    obtain ⟨ws, hcut, htext, htokens⟩ :=
      ih (fun d hd => hcs d (List.mem_of_mem_drop hd))
        (congrArg (Token.Scanned.mk rest.tokens) herror)
    refine ⟨⟨word, l, hspells⟩ :: ws, ⟨htext ▸ hapart, hcut⟩, ?_, ?_⟩
    · rw [text_cons, htext]
      exact List.take_append_drop l.length (c :: cs)
    · obtain rfl : t :: rest.tokens = ts := congrArg Token.Scanned.tokens h
      exact congrArg (t :: ·) htokens

end Word

end Formula
