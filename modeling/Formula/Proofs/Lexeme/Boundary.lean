import Formula.Proofs.Lexeme.Reach
import Mathlib.Data.List.TakeWhile

/-!
# Where a word ends

A word spells a lexeme if it is the longest word at the front of itself (`Lexeme.Spells`), and
it stands apart from what follows if no rule reaches across its end (`Lexeme.Apart`). Both
together say that it is cut off a longer text, and every word that is cut off is so
(`Lexeme.first?_append`, `Lexeme.spells_of_first?`).

Standing apart depends on the first character behind the word alone (`Lexeme.apart_cons_iff`).
For the words of formulas there are four reasons for it: parentheses, the comma and the degree
sign stand apart on both sides (`Lexeme.apart_of_isDelimiter`, `Lexeme.apart_delimiter`), and so
do neighbours of which only one is of the characters of names (`Lexeme.apart_of_isNamePart`,
`Lexeme.apart_of_not_isNamePart`).
-/

namespace Formula.Lexeme

/-- What is said of the characters of a text is decided by these characters, not by going
through all that there are. -/
instance (priority := high) decidableForallMemChar {p : Char → Prop} [DecidablePred p]
    (cs : List Char) : Decidable (∀ c ∈ cs, p c) := List.decidableBAll p cs

variable {w u v : List Char} {l : Lexeme}

/-! ### The rules one by one -/

/-- The words with a rule of their own. -/
def vocabulary : List (List Char) :=
  Catalog.entries.map (·.symbol.toList) ++ ["true".toList, "false".toList]

/-- A rule is that of a word, of numbers or of names. -/
theorem length_of_mem_rules {r : Rule} (hr : r ∈ rules) :
    (∃ v ∈ vocabulary, ∀ cs, r.length cs = wordLength v cs) ∨
      (∀ cs, r.length cs = numberLength cs) ∨ ∀ cs, r.length cs = nameLength cs := by
  obtain hr | hr := List.mem_append.mp hr
  · obtain ⟨e, he, rfl⟩ := List.mem_map.mp hr
    exact .inl ⟨e.symbol.toList, List.mem_append_left _ (List.mem_map.mpr ⟨e, he, rfl⟩),
      fun cs => rfl⟩
  · simp only [List.mem_cons, List.not_mem_nil, or_false] at hr
    obtain rfl | rfl | rfl | rfl := hr
    · exact .inl ⟨"true".toList, by simp [vocabulary], fun cs => rfl⟩
    · exact .inl ⟨"false".toList, by simp [vocabulary], fun cs => rfl⟩
    · exact .inr (.inl fun cs => rfl)
    · exact .inr (.inr fun cs => rfl)

/-- Each word of the vocabulary has a rule that finds just that word. -/
theorem exists_rule_of_mem_vocabulary (hv : v ∈ vocabulary) :
    ∃ r ∈ rules, ∀ cs, r.length cs = wordLength v cs := by
  obtain hv | hv := List.mem_append.mp hv
  · obtain ⟨e, he, rfl⟩ := List.mem_map.mp hv
    exact ⟨.entry e, List.mem_append_left _ (List.mem_map_of_mem he), fun cs => rfl⟩
  · simp only [List.mem_cons, List.not_mem_nil, or_false] at hv
    obtain rfl | rfl := hv
    · exact ⟨.word "true", by simp [rules], fun cs => rfl⟩
    · exact ⟨.word "false", by simp [rules], fun cs => rfl⟩

theorem wordLength_eq_length {cs : List Char} (h : v <+: cs) : wordLength v cs = v.length := by
  rw [wordLength, if_pos (List.isPrefixOf_iff_prefix.mpr h)]

theorem wordLength_eq_zero {cs : List Char} (h : ¬v <+: cs) : wordLength v cs = 0 := by
  rw [wordLength, if_neg (mt List.isPrefixOf_iff_prefix.mp h)]

/-- A word that ends within the first part of a text is found there without the second. -/
private theorem wordLength_append_of_le (h : wordLength v (w ++ u) ≤ w.length) :
    wordLength v (w ++ u) = wordLength v w := by
  by_cases hv : v <+: w ++ u
  · rw [wordLength_eq_length hv] at h
    have hw : v <+: w := List.prefix_of_prefix_length_le hv (List.prefix_append w u) h
    rw [wordLength_eq_length hv, wordLength_eq_length hw]
  · have hw : ¬v <+: w := fun hw => hv (hw.trans (List.prefix_append w u))
    rw [wordLength_eq_zero hv, wordLength_eq_zero hw]

/-- A rule that reaches no further than a part of the text reaches as far in this part alone. -/
theorem Rule.length_append_of_le {r : Rule} (hr : r ∈ rules)
    (h : r.length (w ++ u) ≤ w.length) : r.length (w ++ u) = r.length w := by
  obtain ⟨v, -, hv⟩ | hnumber | hname := length_of_mem_rules hr
  · rw [hv] at h ⊢
    rw [hv, wordLength_append_of_le h]
  · rw [hnumber, numberLength_eq_reach] at h ⊢
    rw [hnumber, numberLength_eq_reach, reach_append_of_le h]
  · rw [hname, nameLength_eq_reach] at h ⊢
    rw [hname, nameLength_eq_reach, reach_append_of_le h]

/-! ### The longest word -/

/-- The longest word is settled by how far the rules reach. -/
theorem longest?_congr {cs ds : List Char} {rs : List Rule}
    (h : ∀ r ∈ rs, r.length cs = r.length ds) : longest? cs rs = longest? ds rs := by
  induction rs with
  | nil => rfl
  | cons r rs ih =>
    have hr := h r List.mem_cons_self
    have hrs := ih fun r' hr' => h r' (List.mem_cons_of_mem _ hr')
    simp only [longest?, hr, hrs]

theorem length_eq_zero_of_longest? {cs : List Char} {rs : List Rule}
    (h : longest? cs rs = none) : ∀ r ∈ rs, r.length cs = 0 := by
  induction rs with
  | nil => exact fun r hr => absurd hr List.not_mem_nil
  | cons r rs ih =>
    rcases hrest : longest? cs rs with _ | l
    · simp only [longest?, hrest, dite_eq_right_iff, reduceCtorEq, imp_false] at h
      intro r' hr'
      obtain rfl | hr' := List.mem_cons.mp hr'
      · exact Nat.eq_zero_of_not_pos h
      · exact ih hrest r' hr'
    · simp only [longest?, hrest] at h
      split at h <;> exact absurd h (Option.some_ne_none _)

/-- The longest word is that of a rule, and no rule reaches further. -/
theorem length_le_of_longest? {cs : List Char} {rs : List Rule} (h : longest? cs rs = some l) :
    (l.rule ∈ rs ∧ l.rule.length cs = l.length) ∧ ∀ r ∈ rs, r.length cs ≤ l.length := by
  induction rs generalizing l with
  | nil => exact absurd h.symm (Option.some_ne_none _)
  | cons r rs ih =>
    rcases hrest : longest? cs rs with _ | l'
    · have hzero := length_eq_zero_of_longest? hrest
      simp only [longest?, hrest, Option.dite_none_right_eq_some, Option.some.injEq] at h
      obtain ⟨_, rfl⟩ := h
      refine ⟨⟨List.mem_cons_self, rfl⟩, fun r' hr' => ?_⟩
      obtain rfl | hr' := List.mem_cons.mp hr'
      · exact Nat.le_refl _
      · rw [hzero r' hr']
        exact Nat.zero_le _
    · obtain ⟨⟨hmem, hlength⟩, hle⟩ := ih hrest
      simp only [longest?, hrest] at h
      split at h
      · next hr =>
        obtain rfl := Option.some.inj h
        refine ⟨⟨List.mem_cons_self, rfl⟩, fun r' hr' => ?_⟩
        obtain rfl | hr' := List.mem_cons.mp hr'
        · exact Nat.le_refl _
        · exact Nat.le_trans (hle r' hr') hr
      · next hr =>
        obtain rfl := Option.some.inj h
        refine ⟨⟨List.mem_cons_of_mem _ hmem, hlength⟩, fun r' hr' => ?_⟩
        obtain rfl | hr' := List.mem_cons.mp hr'
        · exact Nat.le_of_not_le hr
        · exact hle r' hr'

/-! ### Words and their neighbours -/

/-- The word is the longest one at the front of itself. -/
def Spells (l : Lexeme) (w : List Char) : Prop := first? w = some l ∧ l.length = w.length

/-- No rule reaches from the word into what follows. -/
def Apart (w u : List Char) : Prop := ∀ r ∈ rules, r.length (w ++ u) ≤ w.length

theorem apart_nil (w : List Char) : Apart w [] := by
  intro r _
  rw [List.append_nil]
  exact r.length_le w

theorem Spells.ne_nil (h : l.Spells w) : w ≠ [] := by
  rintro rfl
  exact absurd h.2 (Nat.ne_of_gt l.length_pos)

/-- A word that stands apart is cut off. -/
theorem first?_append (h : l.Spells w) (hu : Apart w u) : first? (w ++ u) = some l := by
  rw [first?, longest?_congr fun r hr => Rule.length_append_of_le hr (hu r hr)]
  exact h.1

/-- What is cut off is a word that stands apart. -/
theorem spells_of_first? {cs : List Char} (h : first? cs = some l) :
    l.Spells (cs.take l.length) ∧ Apart (cs.take l.length) (cs.drop l.length) := by
  obtain ⟨⟨-, hrule⟩, hle⟩ := length_le_of_longest? h
  -- the word is no longer than the text, and no rule reaches further
  have hlength : (cs.take l.length).length = l.length := by
    rw [List.length_take, Nat.min_eq_left]
    exact hrule ▸ l.rule.length_le cs
  have hapart : Apart (cs.take l.length) (cs.drop l.length) := by
    intro r hr
    rw [List.take_append_drop, hlength]
    exact hle r hr
  refine ⟨⟨?_, hlength.symm⟩, hapart⟩
  rw [first?, ← longest?_congr fun r hr => Rule.length_append_of_le hr (hapart r hr),
    List.take_append_drop]
  exact h

/-! ### The first character behind a word -/

/-- Does the character make a word of its own wherever it stands? -/
def isDelimiter (c : Char) : Bool := c == '(' || c == ')' || c == ',' || c == '°'

/-- A delimiter is in no symbol but the one that consists of it. -/
private theorem eq_singleton_of_isDelimiter :
    ∀ v ∈ vocabulary, ∀ c ∈ v, isDelimiter c = true → v = [c] := by decide

/-- A word with a rule of its own is a name or free of the characters of names. -/
theorem isNamePart_of_vocabulary :
    ∀ v ∈ vocabulary, ∀ c ∈ v, ∀ d ∈ v, isNamePart c = isNamePart d := by decide

/-- A word with a rule of its own is short or consists of letters. -/
theorem isNameStart_of_vocabulary :
    ∀ v ∈ vocabulary, v.length ≤ 2 ∨ ∀ c ∈ v, isNameStart c = true := by decide

variable {d : Char}

/-- A word with a rule of its own that reaches across begins with all characters on this side
and the next one. -/
theorem append_singleton_isPrefix (hv : v <+: w ++ d :: u) (h : w.length < v.length) :
    w ++ [d] <+: v := by
  have hd : w ++ [d] <+: w ++ d :: u := ⟨u, by simp⟩
  refine List.prefix_of_prefix_length_le hd hv ?_
  rw [List.length_append, List.length_singleton]
  exact h

/-- Reaching across the end of a word, rule by rule. -/
theorem apart_cons_of_rules (hword : ∀ v ∈ vocabulary, ¬w ++ [d] <+: v)
    (hnumber : numberLength (w ++ d :: u) ≤ w.length)
    (hname : nameLength (w ++ d :: u) ≤ w.length) : Apart w (d :: u) := by
  intro r hr
  obtain ⟨v, hv, hlength⟩ | hlength | hlength := length_of_mem_rules hr
  · rw [hlength]
    by_cases hfront : v <+: w ++ d :: u
    · rw [wordLength_eq_length hfront]
      exact Nat.le_of_not_lt fun h => hword v hv (append_singleton_isPrefix hfront h)
    · rw [wordLength_eq_zero hfront]
      exact Nat.zero_le _
  · rw [hlength]
    exact hnumber
  · rw [hlength]
    exact hname

/-- The rule for numbers finds nothing longer where a word is cut off. -/
private theorem numberLength_append_of_apart (h : Apart w [d]) :
    numberLength (w ++ d :: u) ≤ w.length := by
  have hone := h .number (by simp [rules])
  rw [Rule.length, numberLength_eq_reach] at hone
  rw [numberLength_eq_reach]
  exact Nat.le_of_not_lt fun hlt => Nat.not_lt.mpr hone (lt_reach_append_singleton hlt)

private theorem nameLength_append_of_apart (h : Apart w [d]) :
    nameLength (w ++ d :: u) ≤ w.length := by
  have hone := h .identifier (by simp [rules])
  rw [Rule.length, nameLength_eq_reach] at hone
  rw [nameLength_eq_reach]
  exact Nat.le_of_not_lt fun hlt => Nat.not_lt.mpr hone (lt_reach_append_singleton hlt)

/-- Letters in a row are the front of one name. -/
theorem nameLength_eq_length {cs : List Char} (h : ∀ c ∈ cs, isNameStart c = true) :
    nameLength cs = cs.length := by
  obtain _ | ⟨c, cs⟩ := cs
  · rfl
  · have hcs : cs.takeWhile isNamePart = cs := by
      refine List.takeWhile_eq_self_iff.mpr fun c hc => ?_
      exact isNamePart_of_isNameStart (h c (List.mem_cons_of_mem _ hc))
    rw [nameLength, if_pos (h c List.mem_cons_self), hcs, List.length_cons]

/-- A word stands apart from a text if it stands apart from its first character. -/
theorem apart_cons_iff (hw : w ≠ []) : Apart w (d :: u) ↔ Apart w [d] := by
  constructor
  · -- what reaches no further than the word reaches as far without the rest of the text
    intro h r hr
    have hle := h r hr
    have heq : w ++ d :: u = (w ++ [d]) ++ u := by simp
    rw [heq] at hle
    rw [← Rule.length_append_of_le hr (Nat.le_trans hle (by simp))]
    exact hle
  · intro h
    refine apart_cons_of_rules (fun v hv hfront => ?_) (numberLength_append_of_apart h)
      (nameLength_append_of_apart h)
    obtain hshort | hletters := isNameStart_of_vocabulary v hv
    · -- a short word that begins with the two characters is no longer than these
      have hlength := hfront.length_le
      have hpos := List.length_pos_iff.mpr hw
      rw [List.length_append, List.length_singleton] at hlength
      have hsame : (w ++ [d]).length = v.length := by
        rw [List.length_append, List.length_singleton]
        omega
      have hv' : v = w ++ [d] := (hfront.eq_of_length hsame).symm
      obtain ⟨r, hr, hlen⟩ := exists_rule_of_mem_vocabulary hv
      have hle := h r hr
      rw [hlen, hv', wordLength_eq_length (List.prefix_refl _), List.length_append,
        List.length_singleton] at hle
      omega
    · -- a word of letters is the front of a name that reaches across
      have hle := h .identifier (by simp [rules])
      rw [Rule.length, nameLength_eq_length fun c hc => hletters c (hfront.subset hc),
        List.length_append, List.length_singleton] at hle
      omega

/-! ### Neighbours in formulas -/

theorem isNamePart_of_isNumeric {c : Char} (h : isNumeric c = true) : isNamePart c = true := by
  simp only [isNumeric, Bool.or_eq_true] at h
  obtain h | h := h <;> simp [isNamePart, Char.isAlphanum, h]

private theorem isNamePart_of_isDelimiter {c : Char} (h : isDelimiter c = true) :
    isNamePart c = false := by
  simp only [isDelimiter, Bool.or_eq_true, beq_iff_eq] at h
  obtain ((rfl | rfl) | rfl) | rfl := h <;> rfl

private theorem isNumeric_eq_false {c : Char} (h : isNamePart c = false) : isNumeric c = false :=
  Bool.eq_false_iff.mpr fun hc => Bool.eq_false_iff.mp h (isNamePart_of_isNumeric hc)

private theorem isNameStart_eq_false {c : Char} (h : isNamePart c = false) :
    isNameStart c = false :=
  Bool.eq_false_iff.mpr fun hc => Bool.eq_false_iff.mp h (isNamePart_of_isNameStart hc)

private theorem ne_exponentMark {c : Char} (h : isNamePart c = false) : c ≠ 'e' := by
  rintro rfl
  exact absurd h (by decide)

theorem numberLength_cons_eq_zero {c : Char} {cs : List Char} (h : isNumeric c = false) :
    numberLength (c :: cs) = 0 := by
  rw [numberLength, if_neg (Bool.eq_false_iff.mp h)]

theorem nameLength_cons_eq_zero {c : Char} {cs : List Char} (h : isNameStart c = false) :
    nameLength (c :: cs) = 0 := by
  rw [nameLength, if_neg (Bool.eq_false_iff.mp h)]

private theorem nameLength_append_le (hd : isNamePart d = false) :
    nameLength (w ++ d :: u) ≤ w.length := by
  rw [nameLength_eq_reach]
  exact reach_append_cons_le (nameNext_eq_none hd)

/-- Every word stands apart from a delimiter behind it. -/
theorem apart_of_isDelimiter (hw : w ≠ []) (hd : isDelimiter d = true) : Apart w (d :: u) := by
  have hpart := isNamePart_of_isDelimiter hd
  have hsign : d ≠ '+' ∧ d ≠ '-' := by constructor <;> rintro rfl <;> exact absurd hd (by decide)
  refine apart_cons_of_rules (fun v hv hfront => ?_) ?_ (nameLength_append_le hpart)
  · -- the word would have a delimiter in it and be longer than this
    have hmem : d ∈ v := hfront.subset (List.mem_append_right _ (List.mem_singleton_self d))
    have hlength := hfront.length_le
    have hpos := List.length_pos_iff.mpr hw
    rw [eq_singleton_of_isDelimiter v hv d hmem hd, List.length_append] at hlength
    omega
  · rw [numberLength_eq_reach]
    exact reach_append_cons_le (numberNext_eq_none (isNumeric_eq_false hpart)
      (ne_exponentMark hpart) hsign.1 hsign.2)

/-- A delimiter stands apart from whatever is behind it. -/
theorem apart_delimiter (hd : isDelimiter d = true) : Apart [d] u := by
  have hpart := isNamePart_of_isDelimiter hd
  obtain _ | ⟨c, u⟩ := u
  · exact apart_nil [d]
  · refine apart_cons_of_rules (fun v hv hfront => ?_) ?_ ?_
    · have hmem : d ∈ v := hfront.subset (List.mem_append_left _ (List.mem_singleton_self d))
      have hlength := hfront.length_le
      rw [eq_singleton_of_isDelimiter v hv d hmem hd] at hlength
      exact absurd hlength (by simp)
    · rw [List.singleton_append, numberLength_cons_eq_zero (isNumeric_eq_false hpart)]
      exact Nat.zero_le _
    · rw [List.singleton_append, nameLength_cons_eq_zero (isNameStart_eq_false hpart)]
      exact Nat.zero_le _

variable {c : Char} {cs : List Char}

/-- A name or a number stands apart from a character that belongs to no name, unless the number
waits for an exponent. -/
theorem apart_of_isNamePart (hc : isNamePart c = true) (hd : isNamePart d = false)
    (hlast : isNumeric c = true → ∀ b ∈ (c :: cs).getLast?, b ≠ 'e') :
    Apart (c :: cs) (d :: u) := by
  refine apart_cons_of_rules (fun v hv hfront => ?_) ?_ (nameLength_append_le hd)
  · have hsame := isNamePart_of_vocabulary v hv c (hfront.subset (by simp)) d
      (hfront.subset (by simp))
    rw [hc, hd] at hsame
    exact Bool.noConfusion hsame
  · rcases hnumeric : isNumeric c with _ | _
    · rw [List.cons_append, numberLength_cons_eq_zero hnumeric]
      exact Nat.zero_le _
    · -- a sign would go on with the number only behind an exponent mark
      rw [numberLength_eq_reach]
      refine reach_append_cons_le_of_getLast (fun s s' b hb hne => ?_) (hlast hnumeric)
        (List.cons_ne_nil _ _)
      exact numberNext_sign_eq_none hb hne (isNumeric_eq_false hd) (ne_exponentMark hd)

/-- A word free of the characters of names stands apart from such a character. -/
theorem apart_of_not_isNamePart (hc : isNamePart c = false) (hd : isNamePart d = true) :
    Apart (c :: cs) (d :: u) := by
  refine apart_cons_of_rules (fun v hv hfront => ?_) ?_ ?_
  · have hsame := isNamePart_of_vocabulary v hv c (hfront.subset (by simp)) d
      (hfront.subset (by simp))
    rw [hc, hd] at hsame
    exact Bool.noConfusion hsame
  · rw [List.cons_append, numberLength_cons_eq_zero (isNumeric_eq_false hc)]
    exact Nat.zero_le _
  · rw [List.cons_append, nameLength_cons_eq_zero (isNameStart_eq_false hc)]
    exact Nat.zero_le _

end Formula.Lexeme
