import Formula.Proofs.Text.Spelling
import Mathlib.Computability.Language

/-!
# The words of the rules

What a rule takes for a word is a set of words, said without reading a text: the symbol itself
for a symbol, and regular languages for numbers (`Lexeme.numbers`) and names (`Lexeme.names`).
A rule reaches to the end of its words and of no other texts (`Lexeme.isWord_iff`), and it
reaches over each of its words that is at the front of a text (`Lexeme.Rule.le_length_append`).

So the word that is cut off the front of a text is the longest one there is
(`Lexeme.longest_of_first?`).
-/

namespace Formula.Lexeme

open scoped Computability

/-! ### Languages -/

/-- The words of one character that satisfies a condition. -/
def one (p : Char → Bool) : Language Char := {w | ∃ c, p c = true ∧ w = [c]}

/-- What may stand in a number behind its first character, piece by piece: digits, points, and
exponent marks with or without a sign. -/
def pieces : Language Char :=
  one isNumeric + {['e']} * (1 + one fun c => c == '+' || c == '-')

/-- A digit or a point, and then any number of pieces: `[0-9.]([0-9.]|e[+-]?)*`. -/
def numbers : Language Char := one isNumeric * pieces∗

/-- A letter or an underscore, and then letters, digits, underscores, points and brackets:
`[a-zA-Z_][a-zA-Z0-9_.\[\]]*`. -/
def names : Language Char := one isNameStart * (one isNamePart)∗

/-- The words of all rules. -/
def IsWord (w : List Char) : Prop := w ∈ vocabulary ∨ w ∈ numbers ∨ w ∈ names

variable {w u v : List Char} {p : Char → Bool}

theorem mem_one_mul_iff {l : Language Char} :
    w ∈ one p * l ↔ ∃ c cs, w = c :: cs ∧ p c = true ∧ cs ∈ l := by
  rw [Language.mem_mul]
  constructor
  · rintro ⟨_, ⟨c, hc, rfl⟩, cs, hcs, rfl⟩
    exact ⟨c, cs, rfl, hc, hcs⟩
  · rintro ⟨c, cs, rfl, hc, hcs⟩
    exact ⟨[c], ⟨c, hc, rfl⟩, cs, hcs, rfl⟩

theorem mem_kstar_one_iff : w ∈ (one p)∗ ↔ ∀ c ∈ w, p c = true := by
  rw [Language.mem_kstar]
  constructor
  · rintro ⟨L, rfl, hL⟩ c hc
    obtain ⟨v, hv, hcv⟩ := List.mem_flatten.mp hc
    obtain ⟨d, hd, rfl⟩ := hL v hv
    rw [List.mem_singleton.mp hcv]
    exact hd
  · intro h
    refine ⟨w.map ([·]), by rw [← List.flatMap_def, List.flatMap_singleton'], fun v hv => ?_⟩
    obtain ⟨c, hc, rfl⟩ := List.mem_map.mp hv
    exact ⟨c, h c hc, rfl⟩

/-! ### Names and numbers -/

theorem mem_names_iff : w ∈ names ↔ w ≠ [] ∧ nameLength w = w.length := by
  rw [names, mem_one_mul_iff]
  constructor
  · rintro ⟨c, cs, rfl, hc, hcs⟩
    have htake : cs.takeWhile isNamePart = cs :=
      List.takeWhile_eq_self_iff.mpr (mem_kstar_one_iff.mp hcs)
    exact ⟨List.cons_ne_nil c cs, by rw [nameLength, if_pos hc, htake, List.length_cons]⟩
  · rintro ⟨hne, hlength⟩
    obtain ⟨c, cs, rfl⟩ := List.exists_cons_of_ne_nil hne
    rw [nameLength] at hlength
    split at hlength
    case isFalse => exact absurd hlength (Nat.succ_ne_zero _).symm
    case isTrue hc =>
      have htake : cs.takeWhile isNamePart = cs :=
        (List.takeWhile_prefix _).eq_of_length (Nat.succ.inj hlength)
      exact ⟨c, cs, rfl, hc, mem_kstar_one_iff.mpr (List.takeWhile_eq_self_iff.mp htake)⟩

/-- The pieces behind the first character of a number, one by one. -/
private theorem mem_pieces_iff : w ∈ pieces ↔
    (∃ c, isNumeric c = true ∧ w = [c]) ∨ w = ['e'] ∨ w = ['e', '+'] ∨ w = ['e', '-'] := by
  have hmark : w ∈ ({['e']} * (1 + one fun c => c == '+' || c == '-') : Language Char) ↔
      w = ['e'] ∨ w = ['e', '+'] ∨ w = ['e', '-'] := by
    rw [Language.mem_mul]
    constructor
    · rintro ⟨_, rfl, v, hv, rfl⟩
      obtain rfl | ⟨c, hc, rfl⟩ := (Language.mem_add _ _ _).mp hv
      · exact .inl rfl
      · obtain rfl | rfl : c = '+' ∨ c = '-' := by simpa using hc
        · exact .inr (.inl rfl)
        · exact .inr (.inr rfl)
    · rintro (rfl | rfl | rfl)
      · exact ⟨['e'], rfl, [], (Language.mem_add _ _ _).mpr (.inl rfl), rfl⟩
      · exact ⟨['e'], rfl, ['+'], (Language.mem_add _ _ _).mpr (.inr ⟨'+', rfl, rfl⟩), rfl⟩
      · exact ⟨['e'], rfl, ['-'], (Language.mem_add _ _ _).mpr (.inr ⟨'-', rfl, rfl⟩), rfl⟩
  rw [pieces, Language.mem_add, hmark]
  rfl

/-- What may follow a digit may follow an exponent mark. -/
theorem reach_mark_eq_length (h : reach numberNext .inside w = w.length) :
    reach numberNext .mark w = w.length := by
  obtain _ | ⟨c, w⟩ := w
  · rfl
  · cases hs : numberNext .inside c with
    | none =>
      rw [reach_cons_of_none hs] at h
      exact absurd h (Nat.succ_ne_zero _).symm
    | some s =>
      have hmark : numberNext .mark c = some s := by
        simp only [numberNext] at hs ⊢
        grind
      rw [reach_cons_of_some hs] at h
      rw [reach_cons_of_some hmark, h]

private theorem append_mem_kstar {l : Language Char} (hv : v ∈ l) (hw : w ∈ l∗) : v ++ w ∈ l∗ := by
  rw [← Language.one_add_self_mul_kstar_eq_kstar]
  exact (Language.mem_add _ _ _).mpr (.inr (Language.append_mem_mul hv hw))

/-- Pieces one after the other are taken whole. -/
private theorem reach_inside_pieces {L : List (List Char)} (hL : ∀ v ∈ L, v ∈ pieces) :
    reach numberNext .inside L.flatten = L.flatten.length := by
  induction L with
  | nil => rfl
  | cons v L ih =>
    obtain ⟨hv, hL⟩ := List.forall_mem_cons.mp hL
    have hrest := ih hL
    have he : numberNext .inside 'e' = some .mark := rfl
    have hsign : ∀ c, numberNext .mark c = some .inside →
        reach numberNext .inside (['e', c] ++ L.flatten) = (['e', c] ++ L.flatten).length := by
      intro c hc
      rw [List.cons_append, reach_cons_of_some he, List.singleton_append, reach_cons_of_some hc,
        hrest, List.length_cons, List.length_cons]
    rw [List.flatten_cons]
    obtain ⟨c, hc, rfl⟩ | rfl | rfl | rfl := mem_pieces_iff.mp hv
    · have hinside : numberNext .inside c = some .inside := by
        rw [numberNext, if_pos hc, if_neg]
        rintro rfl
        exact absurd hc (by decide)
      rw [List.singleton_append, reach_cons_of_some hinside, hrest, List.length_cons]
    · rw [List.singleton_append, reach_cons_of_some he, reach_mark_eq_length hrest,
        List.length_cons]
    · exact hsign '+' rfl
    · exact hsign '-' rfl

/-- The rows of pieces are what can follow inside a number. -/
private theorem mem_kstar_pieces_iff : w ∈ pieces∗ ↔ reach numberNext .inside w = w.length := by
  constructor
  · intro h
    obtain ⟨L, rfl, hL⟩ := Language.mem_kstar.mp h
    exact reach_inside_pieces hL
  · rw [reach_inside_eq]
    intro h
    fun_induction numberTail w with
    | case1 cs ih =>
      have hpiece : ['e', '+'] ∈ pieces := mem_pieces_iff.mpr (by simp)
      exact append_mem_kstar hpiece (ih (by simpa using h))
    | case2 cs ih =>
      have hpiece : ['e', '-'] ∈ pieces := mem_pieces_iff.mpr (by simp)
      exact append_mem_kstar hpiece (ih (by simpa using h))
    | case3 c cs hplus hminus hc ih =>
      have hpiece : [c] ∈ pieces := by
        rw [mem_pieces_iff]
        obtain hc | rfl : isNumeric c = true ∨ c = 'e' := by simpa using hc
        · exact .inl ⟨c, hc, rfl⟩
        · exact .inr (.inl rfl)
      exact append_mem_kstar hpiece (ih (by simpa using h))
    | case4 c cs hplus hminus hc => exact absurd h (by simp)
    | case5 => exact Language.nil_mem_kstar _

/-- The language of numbers has the words that the rule for numbers takes whole. -/
theorem mem_numbers_iff : w ∈ numbers ↔ w ≠ [] ∧ numberLength w = w.length := by
  rw [numbers, mem_one_mul_iff]
  constructor
  · rintro ⟨c, cs, rfl, hc, hcs⟩
    rw [mem_kstar_pieces_iff, reach_inside_eq] at hcs
    exact ⟨List.cons_ne_nil c cs, by rw [numberLength, if_pos hc, hcs, List.length_cons]⟩
  · rintro ⟨hne, hlength⟩
    obtain ⟨c, cs, rfl⟩ := List.exists_cons_of_ne_nil hne
    rw [numberLength] at hlength
    split at hlength
    case isFalse => exact absurd hlength (Nat.succ_ne_zero _).symm
    case isTrue hc =>
      refine ⟨c, cs, rfl, hc, mem_kstar_pieces_iff.mpr ?_⟩
      rw [reach_inside_eq]
      exact Nat.succ.inj hlength

/-! ### No number is another word -/

private theorem isNumeric_eq_false_of_isNameStart {c : Char} (h : isNameStart c = true) :
    isNumeric c = false := by
  refine Bool.eq_false_iff.mpr fun hc => ?_
  rw [isNumeric, Bool.or_eq_true, beq_iff_eq] at hc
  rw [isNameStart, Text.isAlpha_eq, Bool.or_eq_true, Bool.or_eq_true, Text.isUpper_iff,
    Text.isLower_iff, beq_iff_eq] at h
  obtain hc | rfl := hc
  · have hdigit : c.toNat ≤ 57 := (Char.isDigit_iff_toNat.mp hc).2
    obtain h | rfl := h
    · omega
    · exact absurd hc (by decide)
  · obtain h | h := h
    · exact absurd h (by decide)
    · exact absurd h (by decide)

private theorem head_of_vocabulary : ∀ v ∈ vocabulary, v.head?.any isNumeric = false := by decide

/-- No number is a word of the vocabulary. -/
theorem not_mem_vocabulary_of_mem_numbers (h : w ∈ numbers) : w ∉ vocabulary := by
  obtain ⟨c, cs, rfl, hc, -⟩ := mem_one_mul_iff.mp h
  intro hw
  have hhead : isNumeric c = false := head_of_vocabulary _ hw
  rw [hhead] at hc
  exact Bool.false_ne_true hc

theorem not_mem_names_of_mem_numbers (h : w ∈ numbers) : w ∉ names := by
  obtain ⟨c, cs, rfl, hc, -⟩ := mem_one_mul_iff.mp h
  intro hw
  obtain ⟨d, ds, hd, hstart, -⟩ := mem_one_mul_iff.mp hw
  obtain ⟨rfl, -⟩ := List.cons.inj hd
  rw [isNumeric_eq_false_of_isNameStart hstart] at hc
  exact Bool.false_ne_true hc

/-! ### The words of all rules -/

private theorem ne_nil_of_mem_vocabulary : ∀ v ∈ vocabulary, v ≠ [] := by decide

/-- The words are the texts over all of which some rule reaches. -/
theorem isWord_iff : IsWord w ↔ w ≠ [] ∧ ∃ r ∈ rules, r.length w = w.length := by
  constructor
  · rintro (hw | hw | hw)
    · obtain ⟨r, hr, hlength⟩ := exists_rule_of_mem_vocabulary hw
      refine ⟨ne_nil_of_mem_vocabulary w hw, r, hr, ?_⟩
      rw [hlength, wordLength_eq_length List.prefix_rfl]
    · obtain ⟨hne, hlength⟩ := mem_numbers_iff.mp hw
      exact ⟨hne, .number, by simp [rules], hlength⟩
    · obtain ⟨hne, hlength⟩ := mem_names_iff.mp hw
      exact ⟨hne, .identifier, by simp [rules], hlength⟩
  · rintro ⟨hne, r, hr, hlength⟩
    obtain ⟨v, hv, hl⟩ | hl | hl := length_of_mem_rules hr
    · rw [hl] at hlength
      rw [eq_of_wordLength hlength hne]
      exact .inl hv
    · exact .inr (.inl (mem_numbers_iff.mpr ⟨hne, hl w ▸ hlength⟩))
    · exact .inr (.inr (mem_names_iff.mpr ⟨hne, hl w ▸ hlength⟩))

/-- A text that is read to its end is read to its end in front of others. -/
theorem le_reach_append {σ : Type} {next : σ → Char → Option σ} {s : σ}
    (h : reach next s w = w.length) (u : List Char) : w.length ≤ reach next s (w ++ u) := by
  induction w generalizing s with
  | nil => exact Nat.zero_le _
  | cons c w ih =>
    cases hs : next s c with
    | none =>
      rw [reach_cons_of_none hs] at h
      exact absurd h (Nat.succ_ne_zero _).symm
    | some s' =>
      rw [reach_cons_of_some hs] at h
      rw [List.cons_append, reach_cons_of_some hs]
      exact Nat.succ_le_succ (ih (Nat.succ.inj h))

/-- A rule reaches over each of its words at the front of a text. -/
theorem Rule.le_length_append {r : Rule} (hr : r ∈ rules) (h : r.length w = w.length)
    (u : List Char) : w.length ≤ r.length (w ++ u) := by
  obtain ⟨v, -, hl⟩ | hl | hl := length_of_mem_rules hr
  · by_cases hne : w = []
    · rw [hne]
      exact Nat.zero_le _
    · obtain rfl := eq_of_wordLength (hl w ▸ h) hne
      rw [hl, wordLength_eq_length (List.prefix_append w u)]
  · rw [hl, numberLength_eq_reach] at h ⊢
    exact le_reach_append h u
  · rw [hl, nameLength_eq_reach] at h ⊢
    exact le_reach_append h u

/-! ### The longest word at the front -/

/-- The word is at the front of the text, and no word there is longer. -/
structure Longest (w cs : List Char) : Prop where
  isPrefix : w <+: cs
  isWord : IsWord w
  le : ∀ v, v <+: cs → IsWord v → v.length ≤ w.length

variable {cs : List Char} {l : Lexeme}

/-- Of two words of one length at the front there is only one. -/
theorem Longest.eq (h : Longest w cs) (hv : Longest v cs) : w = v := by
  have hlength : w.length = v.length :=
    Nat.le_antisymm (hv.le w h.isPrefix h.isWord) (h.le v hv.isPrefix hv.isWord)
  exact (List.prefix_of_prefix_length_le h.isPrefix hv.isPrefix hlength.le).eq_of_length hlength

/-- **What is cut off is the longest word.** -/
theorem longest_of_first? (h : first? cs = some l) : Longest (cs.take l.length) cs := by
  obtain ⟨hspells, -⟩ := spells_of_first? h
  obtain ⟨-, hle⟩ := length_le_of_longest? h
  refine ⟨List.take_prefix _ _, isWord_iff.mpr ⟨hspells.ne_nil, _, hspells.length_rule⟩, ?_⟩
  rintro v ⟨u, rfl⟩ hv
  obtain ⟨-, r, hr, hlength⟩ := isWord_iff.mp hv
  rw [← hspells.2]
  exact (Rule.le_length_append hr hlength u).trans (hle r hr)

/-- Where nothing is cut off there is no word. -/
theorem not_isWord_of_first?_eq_none (h : first? cs = none) (hw : w <+: cs) : ¬IsWord w := by
  intro hword
  obtain ⟨u, rfl⟩ := hw
  obtain ⟨hne, r, hr, hlength⟩ := isWord_iff.mp hword
  have hle := Rule.le_length_append hr hlength u
  rw [length_eq_zero_of_longest? h r hr] at hle
  exact hne (List.eq_nil_of_length_eq_zero (Nat.le_zero.mp hle))

/-- The longest word is cut off. -/
theorem Longest.exists_first? (h : Longest w cs) :
    ∃ l, first? cs = some l ∧ cs.take l.length = w ∧ l.Spells w := by
  cases hfirst : first? cs with
  | none => exact absurd h.isWord (not_isWord_of_first?_eq_none hfirst h.isPrefix)
  | some l =>
    obtain rfl := (longest_of_first? hfirst).eq h
    exact ⟨l, rfl, rfl, (spells_of_first? hfirst).1⟩

end Formula.Lexeme
