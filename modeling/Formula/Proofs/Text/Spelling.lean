import Formula.Evaluate
import Formula.Proofs.Text.Lowercase
import Formula.Proofs.Token.Words

/-!
# Spellings of one text

White space and the case of ASCII letters are taken out of a text before it is read, so that
all spellings of a text come to the same (`Text.normalizeChars_eq_of_respelled`). What is left are
normal characters (`Text.isNormal_of_mem_normalizeChars`), among which there are no capital
letters and no separators, and a text of normal characters is its own normal form
(`Text.normalizeChars_of_isNormal`); one of the characters of words is if it has no capital letters.

`Text.normalize_isNormal` puts this together for whole texts and for their evaluation, which sees
nothing of a formula but its normal form.
-/

namespace Formula.Text

/-- The second text is the first one with white space put in anywhere and with ASCII letters in
another case. -/
inductive Respelled : List Char → List Char → Prop where
  | nil : Respelled [] []
  | blank {cs ds : List Char} {c : Char} (hc : isBlank c = true) (h : Respelled cs ds) :
      Respelled cs (c :: ds)
  | letter {cs ds : List Char} {c d : Char} (hcd : c.toLower = d.toLower)
      (h : Respelled cs ds) : Respelled (c :: cs) (d :: ds)

theorem respelled_self (cs : List Char) : Respelled cs cs := by
  induction cs with
  | nil => exact .nil
  | cons c cs ih => exact .letter rfl ih

/-- A text is a spelling of another one if this is left of it without white space and case. -/
theorem respelled_of_filter {cs ds : List Char}
    (h : (ds.filter fun d => !isBlank d).map Char.toLower = cs.map Char.toLower) :
    Respelled cs ds := by
  induction ds generalizing cs with
  | nil =>
    obtain rfl : cs = [] := List.map_eq_nil_iff.mp h.symm
    exact .nil
  | cons d ds ih =>
    by_cases hd : isBlank d = true
    · rw [List.filter_cons_of_neg (by simp [hd])] at h
      exact .blank hd (ih h)
    · rw [List.filter_cons_of_pos (by simp [hd]), List.map_cons] at h
      obtain ⟨c, cs, rfl, hcd, hrest⟩ := List.map_eq_cons_iff.mp h.symm
      exact .letter hcd (ih hrest.symm)

/-- The characters of names lie below code point 192, where `lowercase_of_lt` says what becomes of
them. -/
private theorem toNat_of_isNamePart {c : Char} (h : Lexeme.isNamePart c = true) :
    c.toNat < 192 := by
  have hc : c.isAlphanum = (c.isUpper || c.isLower || c.isDigit) := rfl
  simp only [Lexeme.isNamePart, hc, Bool.or_eq_true, isUpper_iff, isLower_iff, beq_iff_eq] at h
  obtain (((((⟨-, h⟩ | ⟨-, h⟩) | h) | rfl) | rfl) | rfl) | rfl := h
  · omega
  · omega
  · have hle : c.toNat ≤ 57 := (Char.isDigit_iff_toNat.mp h).2
    omega
  all_goals decide

/-- So do the other characters of words, the degree sign among them. -/
private theorem toNat_of_isWordChar {c : Char} (h : Lexeme.isWordChar c = true) :
    c.toNat < 192 := by
  have hall : ∀ c ∈ Lexeme.vocabulary.flatten, c.toNat < 192 := by decide +kernel
  rw [Lexeme.isWordChar, Bool.or_eq_true, List.contains_iff_mem] at h
  obtain h | h := h
  · exact toNat_of_isNamePart h
  · exact hall c h

/-- The characters of words are their own lowercase form, capital letters aside. -/
theorem lowercase_eq_self {c : Char} (hc : Lexeme.isWordChar c = true)
    (hupper : c.isUpper = false) : lowercase c = [c] := by
  rw [lowercase_of_lt (toNat_of_isWordChar hc), hupper]
  rfl

private theorem isBlank_eq_false {c : Char} (hc : Lexeme.isWordChar c = true) :
    isBlank c = false := by
  have hall : ∀ n < 192, isBlank (Char.ofNat n) = true →
      Lexeme.isWordChar (Char.ofNat n) = false := by
    decide +kernel
  rw [Bool.eq_false_iff]
  intro hblank
  have h := hall c.toNat (toNat_of_isWordChar hc)
  rw [Char.ofNat_toNat, hc] at h
  exact Bool.noConfusion (h hblank)

/-- The characters of words are normal, capital letters aside. -/
theorem isNormal_of_isWordChar {c : Char} (hc : Lexeme.isWordChar c = true)
    (hupper : c.isUpper = false) : IsNormal c :=
  ⟨isBlank_eq_false hc, lowercase_eq_self hc hupper⟩

/-! ### Normal forms -/

/-- All spellings of a text have the same normal form. -/
theorem normalizeChars_eq_of_respelled {cs ds : List Char} (h : Respelled cs ds) :
    normalizeChars ds = normalizeChars cs := by
  induction h with
  | nil => rfl
  | @blank cs ds c hc _ ih =>
    have hskip : normalizeChars (c :: ds) = normalizeChars ds := by
      rw [normalizeChars, List.filter_cons_of_neg (by simp [hc]), normalizeChars]
    rw [hskip, ih]
  | @letter cs ds c d hcd _ ih =>
    have hblank : isBlank d = isBlank c := by rw [← isBlank_toLower, ← hcd, isBlank_toLower]
    have hlower : lowercase d = lowercase c := by
      rw [← lowercase_toLower, ← hcd, lowercase_toLower]
    simp only [normalizeChars] at ih ⊢
    simp only [List.filter_cons, hblank]
    split
    · rw [List.flatMap_cons, List.flatMap_cons, hlower, ih]
    · exact ih

/-- A text of normal characters is its own normal form. -/
theorem normalizeChars_of_isNormal {cs : List Char} (hcs : ∀ c ∈ cs, IsNormal c) :
    normalizeChars cs = cs := by
  have hfilter : cs.filter (fun c => !isBlank c) = cs := by
    refine List.filter_eq_self.mpr fun c hc => ?_
    rw [(hcs c hc).1]
    rfl
  rw [normalizeChars, hfilter]
  clear hfilter
  induction cs with
  | nil => rfl
  | cons c cs ih =>
    rw [List.flatMap_cons, (hcs c List.mem_cons_self).2,
      ih fun d hd => hcs d (List.mem_cons_of_mem _ hd), List.singleton_append]

/-- A text of the characters of words without capital letters is its own normal form. -/
theorem normalizeChars_eq_self {cs : List Char}
    (hcs : ∀ c ∈ cs, Lexeme.isWordChar c = true ∧ c.isUpper = false) :
    normalizeChars cs = cs :=
  normalizeChars_of_isNormal fun c hc => isNormal_of_isWordChar (hcs c hc).1 (hcs c hc).2

/-- A normal form has normal characters only. -/
theorem isNormal_of_mem_normalizeChars {cs : List Char} :
    ∀ c ∈ normalizeChars cs, IsNormal c := by
  intro c hc
  obtain ⟨d, hd, hc⟩ := List.mem_flatMap.mp hc
  have hblank : isBlank d = false := by simpa using (List.mem_filter.mp hd).2
  exact isNormal_of_mem_lowercase hblank hc

/-- The character is neither a capital letter of ASCII nor a separator. -/
def Settled (c : Char) : Prop := c.isUpper = false ∧ Token.isSeparator c = false

private theorem settled_of_isNormal {c : Char} (h : IsNormal c) : Settled c := by
  refine ⟨isUpper_eq_false_of_isNormal h, Bool.eq_false_iff.mpr fun hc => ?_⟩
  simp only [Token.isSeparator, Bool.or_eq_true, beq_iff_eq] at hc
  obtain (((rfl | rfl) | rfl) | rfl) | rfl := hc <;> exact absurd h.1 (by decide)

/-- In a normal form there are no capital letters of ASCII and no separators. -/
theorem settled_of_mem_normalizeChars {cs : List Char} : ∀ c ∈ normalizeChars cs, Settled c :=
  fun c hc => settled_of_isNormal (isNormal_of_mem_normalizeChars c hc)

/-- **Normalizing a text gives a normal form.** It has no white space and no letter that has
another lowercase form, so that it is its own normal form, and spellings of one text have the same.
Their evaluation is the same, too: the value or the error, and what is asked of the lookup. -/
theorem normalize_isNormal :
    (∀ text, normalize (normalize text) = normalize text) ∧
      (∀ text, ∀ c ∈ (normalize text).toList,
        isBlank c = false ∧ lowercase c = [c] ∧ c.isUpper = false) ∧
      ∀ (text text' : String) (cs : List Char), Respelled cs text.toList →
        Respelled cs text'.toList → normalize text = normalize text' ∧
          ∀ {σ ε : Type} (lookup : Lookup σ ε), evaluate lookup text = evaluate lookup text' := by
  have hnormal : ∀ text, ∀ c ∈ (normalize text).toList, IsNormal c := by
    intro text c hc
    rw [normalize, String.toList_ofList] at hc
    exact isNormal_of_mem_normalizeChars c hc
  refine ⟨fun text => ?_, fun text c hc => ?_, fun text text' cs h h' => ?_⟩
  · rw [normalize, normalizeChars_of_isNormal (hnormal text), String.ofList_toList]
  · have hc := hnormal text c hc
    exact ⟨hc.1, hc.2, isUpper_eq_false_of_isNormal hc⟩
  · have heq : normalize text = normalize text' := by
      rw [normalize, normalize, normalizeChars_eq_of_respelled h,
        normalizeChars_eq_of_respelled h']
    refine ⟨heq, fun lookup => ?_⟩
    rw [evaluate, evaluate, Rpn.ofText, Rpn.ofText, heq]

/-- An ideographic space is white space, and the letter that is brought into lower case as two
characters is the same in both spellings. -/
theorem normalize_dotted_sine :
    Respelled "sin(\u0130)".toList "\u3000Sin( \u0130 )".toList ∧
      Respelled "sin(\u0130)".toList "sIN(\u0130)\t".toList ∧
      normalize "\u3000Sin( \u0130 )" = normalize "sIN(\u0130)\t" ∧
      evaluate (Lookup.noVariables (σ := Unit)) "\u3000Sin( \u0130 )" =
        evaluate Lookup.noVariables "sIN(\u0130)\t" :=
  have h : Respelled "sin(\u0130)".toList "\u3000Sin( \u0130 )".toList :=
    respelled_of_filter (by decide +kernel)
  have h' : Respelled "sin(\u0130)".toList "sIN(\u0130)\t".toList :=
    respelled_of_filter (by decide +kernel)
  have hspellings := normalize_isNormal.2.2 _ _ _ h h'
  ⟨h, h', hspellings.1, hspellings.2 _⟩

end Formula.Text
