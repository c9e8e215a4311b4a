import Formula.Proofs.Token.Slices

/-!
# Tokens read back from their display

The display of tokens is their texts with a blank between any two. Cutting it gives the same
tokens again, though they may have stood close together at first, as in `2x` or `1e-3<<-b`
(`Token.tokenize_display`). Two facts carry this:

* the longest word at the front of a text is the longest one in front of a blank as well
  (`Lexeme.Longest.append_of_apart`), as no rule reaches across a character of no word;
* what a word stands for depends on the token in front of it through its kind alone
  (`Token.Means.congr`), and the kinds are the same again.
-/

namespace Formula

/-! ### Words in front of a blank -/

namespace Lexeme

variable {w u cs : List Char} {d : Char}

/-- No rule reaches across a character that stands in no word. -/
theorem apart_of_not_isWordChar (hd : isWordChar d = false) : Apart w (d :: u) := by
  refine apart_cons_of_rules (fun v hv hfront => ?_) ?_ ?_
  · have hmem : d ∈ v := hfront.subset (List.mem_append_right _ (List.mem_singleton_self d))
    rw [isWordChar_of_mem (List.mem_flatten.mpr ⟨v, hv, hmem⟩)] at hd
    exact Bool.noConfusion hd
  · rw [numberLength_eq_reach]
    refine reach_append_cons_le fun s => Option.eq_none_iff_forall_ne_some.mpr fun s' hs => ?_
    rw [isWordChar_of_numberNext hs] at hd
    exact Bool.noConfusion hd
  · rw [nameLength_eq_reach]
    refine reach_append_cons_le fun s => Option.eq_none_iff_forall_ne_some.mpr fun s' hs => ?_
    rw [isWordChar_of_nameNext hs] at hd
    exact Bool.noConfusion hd

private theorem apart_blank : Apart w (' ' :: u) := apart_of_not_isWordChar (by decide)

/-- The longest word of a text is so wherever it stands apart. -/
theorem Longest.append_of_apart (h : Longest w cs) (hu : Apart w u) : Longest w (w ++ u) := by
  obtain ⟨l, -, -, hspells⟩ := h.exists_first?
  have hlongest := longest_of_first? (first?_append hspells hu)
  rwa [hspells.2, List.take_left] at hlongest

/-- There is no separator in a word. -/
theorem Longest.isSeparator_eq_false (h : Longest w cs) :
    ∀ c ∈ w, Token.isSeparator c = false := by
  obtain ⟨l, -, -, hspells⟩ := h.exists_first?
  exact fun c hc => Lexeme.isSeparator_eq_false (hspells.isWordChar c hc)

private theorem Longest.ne_nil (h : Longest w cs) : w ≠ [] := (isWord_iff.mp h.isWord).1

end Lexeme

namespace Token

open Lexeme (Longest)

variable {position position' : Nat} {previous previous' : Option Token} {w cs : List Char}
  {ts us : List Token} {t u : Token} {k : Kind}

/-! ### The kind of the token in front -/

/-- Whether a sign follows an operand is seen from the kind of the token in front of it. -/
theorem FollowsOperand.congr (hkind : previous.map (·.kind) = previous'.map (·.kind)) :
    FollowsOperand previous ↔ FollowsOperand previous' := by
  cases previous <;> cases previous' <;> simp_all [FollowsOperand]

/-- What a word stands for is settled by the kind of the token in front of it. -/
theorem Means.congr (h : Means previous w k)
    (hkind : previous.map (·.kind) = previous'.map (·.kind)) : Means previous' w k := by
  cases h with
  | operator he hw hr => exact .operator he hw hr
  | function he hw hr => exact .function he hw hr
  | parenthesis he hw hr => exact .parenthesis he hw hr
  | comma he hw hr => exact .comma he hw hr
  | binary he hw hr hp => exact .binary he hw hr ((FollowsOperand.congr hkind).mp hp)
  | unary he hw hr hp => exact .unary he hw hr (mt (FollowsOperand.congr hkind).mpr hp)
  | truth hw => exact .truth hw
  | number hw => exact .number hw
  | name hw hfree => exact .name hw hfree

/-! ### The display of tokens -/

private theorem toList_display_cons (t : Token) (ts : List Token) :
    (display (t :: ts)).toList = t.text.toList ++
      (if ts = [] then [] else ' ' :: (display ts).toList) := by
  rw [display, display]
  cases ts with
  | nil => simp
  | cons u ts =>
    rw [List.map_cons, List.map_cons, String.intercalate_cons_cons, if_neg (List.cons_ne_nil u ts)]
    simp

private theorem display_congr (h : us.map (·.text) = ts.map (·.text)) :
    display us = display ts := by
  rw [display, h, display]

/-- The first word is cut off the display as it was cut off the text. -/
theorem longest_display (h : Longest w cs) (ts : List Token) :
    Longest w (w ++ if ts = [] then [] else ' ' :: (display ts).toList) := by
  refine h.append_of_apart ?_
  split
  · exact Lexeme.apart_nil w
  · exact Lexeme.apart_blank

private theorem dropWhile_append (h : Longest w cs) (rest : List Char) :
    (w ++ rest).dropWhile isSeparator = w ++ rest ∧ (w ++ rest).takeWhile isSeparator = [] := by
  obtain ⟨c, w, rfl⟩ := List.exists_cons_of_ne_nil h.ne_nil
  have hc := Bool.eq_false_iff.mp (h.isSeparator_eq_false c List.mem_cons_self)
  exact ⟨List.dropWhile_cons_of_neg hc, List.takeWhile_cons_of_neg hc⟩

/-- The display of the tokens of a text is cut into the same words, wherever it stands behind a
token of the same kind. -/
theorem Cuts.display (h : Cuts position previous cs ts none)
    (hkind : previous.map (·.kind) = previous'.map (·.kind)) (position' : Nat) :
    ∃ us, Cuts position' previous' (display ts).toList us none ∧
      us.map (·.text) = ts.map (·.text) ∧ us.map (·.kind) = ts.map (·.kind) := by
  generalize herror : none = error at h
  induction h generalizing position' previous' with
  | done h => exact ⟨[], .done rfl, rfl, rfl⟩
  | stuck h hnone => cases herror
  | @word position place previous cs w rest k ts error h hw hk hplace hrest ih =>
    subst herror
    obtain ⟨hdrop, htake⟩ := dropWhile_append hw
      (if ts = [] then [] else ' ' :: (Token.display ts).toList)
    let t' : Token := ⟨String.ofList w, k, position'⟩
    -- the blank behind the word is passed over
    have htail : ∃ us, Cuts (position' + byteLength w) (some t')
        (if ts = [] then [] else ' ' :: (Token.display ts).toList) us none ∧
        us.map (·.text) = ts.map (·.text) ∧ us.map (·.kind) = ts.map (·.kind) := by
      by_cases hts : ts = []
      · rw [if_pos hts, hts]
        exact ⟨[], .done rfl, rfl, rfl⟩
      · obtain ⟨us, hus, hsame⟩ := @ih (some t') rfl
          (position' + byteLength w + (' ').utf8Size) rfl
        rw [if_neg hts]
        exact ⟨us, hus.cons_separator rfl, hsame⟩
    obtain ⟨us, hus, htext, hkinds⟩ := htail
    refine ⟨t' :: us, ?_, by rw [List.map_cons, List.map_cons, htext],
      by rw [List.map_cons, List.map_cons, hkinds]⟩
    rw [toList_display_cons, String.toList_ofList]
    exact .word hdrop (longest_display hw ts) (hk.congr hkind)
      (by rw [htake, byteLength, Nat.add_zero]) hus

/-- Cutting the display gives the texts and the kinds back. -/
theorem exists_tokenize_display {text : String} (h : tokenize text = .ok ts) :
    ∃ us, tokenize (display ts) = .ok us ∧ us.map (·.text) = ts.map (·.text) ∧
      us.map (·.kind) = ts.map (·.kind) := by
  obtain ⟨us, hus, hsame⟩ := (tokenize_eq_ok_iff.mp h).display rfl 0
  exact ⟨us, tokenize_eq_ok_iff.mpr hus, hsame⟩

/-- Tokens of texts are displayed alike only if they are the same but for their positions. -/
theorem kinds_eq_of_display_eq {text text' : String} (h : tokenize text = .ok ts)
    (h' : tokenize text' = .ok us) (hdisplay : display us = display ts) :
    us.map (·.text) = ts.map (·.text) ∧ us.map (·.kind) = ts.map (·.kind) := by
  obtain ⟨vs, hvs, htext, hkind⟩ := exists_tokenize_display h
  obtain ⟨vs', hvs', htext', hkind'⟩ := exists_tokenize_display h'
  rw [hdisplay, hvs] at hvs'
  obtain rfl := Except.ok.inj hvs'
  exact ⟨htext'.symm.trans htext, hkind'.symm.trans hkind⟩

/-- **The display of tokens is read back as the same tokens**, so that it is a canonical form of
the text: what is read back has the same display, and texts have the same display only if their
tokens agree, whatever separators stood between these. -/
theorem tokenize_display {text : String} (h : tokenize text = .ok ts) :
    (∃ us, tokenize (display ts) = .ok us ∧ us.length = ts.length ∧
        us.map (·.text) = ts.map (·.text) ∧ us.map (·.kind) = ts.map (·.kind) ∧
        display us = display ts) ∧
      ∀ text' us, tokenize text' = .ok us →
        (display us = display ts ↔
          us.map (·.text) = ts.map (·.text) ∧ us.map (·.kind) = ts.map (·.kind)) := by
  obtain ⟨us, hus, htext, hkind⟩ := exists_tokenize_display h
  refine ⟨⟨us, hus, ?_, htext, hkind, display_congr htext⟩, fun text' vs hvs => ?_⟩
  · simpa using congrArg List.length htext
  · exact ⟨kinds_eq_of_display_eq h hvs, fun hsame => display_congr hsame.1⟩

/-- In `2x-1e-3<<-b` one sign is binary, one belongs to a number and one is unary, and each is so
again between blanks. -/
theorem tokenize_display_signs :
    let ts : List Token := [⟨"2", .value, 0⟩, ⟨"x", .symbol, 1⟩,
      ⟨"-", .operator ⟨.minus, 6, .fixed 2, false⟩, 2⟩, ⟨"1e-3", .value, 3⟩,
      ⟨"<<", .operator ⟨.shiftLeft, 7, .fixed 2, false⟩, 7⟩,
      ⟨"-", .operator ⟨.minus, 3, .fixed 1, true⟩, 9⟩, ⟨"b", .symbol, 10⟩]
    tokenize "2x-1e-3<<-b" = .ok ts ∧ display ts = "2 x - 1e-3 << - b" ∧
      ∃ us, tokenize "2 x - 1e-3 << - b" = .ok us ∧ us.map (·.kind) = ts.map (·.kind) := by
  intro ts
  have h : tokenize "2x-1e-3<<-b" = .ok ts := by decide +kernel
  have hdisplay : display ts = "2 x - 1e-3 << - b" := by decide +kernel
  obtain ⟨us, hus, -, -, hkind, -⟩ := (tokenize_display h).1
  rw [hdisplay] at hus
  exact ⟨h, hdisplay, us, hus, hkind⟩

end Token

end Formula
