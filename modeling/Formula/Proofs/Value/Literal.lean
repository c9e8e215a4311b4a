import Formula.Value.Literal

/-!
# The end of a literal

A text that ends with the mark of an exponent denotes no number: the exponent is missing
(`Value.getLast?_ne_of_ofLiteral`). This is what keeps a literal apart from a sign behind it.
-/

namespace Formula

variable {cs : List Char}

/-- What is left behind digits ends as the whole does, unless this ends with a digit. -/
theorem getLast?_dropWhile {p : Char → Bool} {c : Char} (hc : p c = false)
    (h : cs.getLast? = some c) : (cs.dropWhile p).getLast? = some c := by
  induction cs with
  | nil => exact absurd h (by simp)
  | cons d cs ih =>
    by_cases hd : p d = true
    · obtain _ | ⟨d', cs⟩ := cs
      · obtain rfl : d = c := by simpa using h
        exact absurd hd (Bool.eq_false_iff.mp hc)
      · rw [List.dropWhile_cons_of_pos hd]
        exact ih (by simpa using h)
    · rw [List.dropWhile_cons_of_neg hd]
      exact h

private theorem Numeral.read?_eq_none (h : cs.getLast? = some 'e') : read? cs = none := by
  rw [read?, if_neg]
  rintro ⟨-, hall⟩
  have he := List.all_eq_true.mp hall 'e' (List.mem_of_getLast? h)
  exact absurd he (by decide)

/-- No integer is empty or ends with an exponent mark. -/
theorem Numeral.readInt?_eq_none (h : cs = [] ∨ cs.getLast? = some 'e') :
    readInt? cs = none := by
  obtain rfl | h := h
  · rfl
  · have htail : ∀ {c : Char} {ds : List Char}, c ≠ 'e' → (c :: ds).getLast? = some 'e' →
        read? ds = none := by
      intro c ds hc h
      obtain _ | ⟨d, ds⟩ := ds
      · exact absurd (by simpa using h) hc
      · exact read?_eq_none (by simpa using h)
    rw [readInt?.eq_def]
    split
    · rw [htail (by decide) h]
      rfl
    · rw [htail (by decide) h]
      rfl
    · rw [read?_eq_none h]
      rfl

namespace Decimal

private theorem readExponent?_eq_none (h : cs.getLast? = some 'e') : readExponent? cs = none := by
  obtain _ | ⟨c, cs⟩ := cs
  · exact absurd h (by simp)
  · rw [readExponent?]
    split
    · refine Numeral.readInt?_eq_none ?_
      obtain _ | ⟨d, cs⟩ := cs
      · exact .inl rfl
      · exact .inr (by simpa using h)
    · rfl

/-- The last character is still the last one behind the point. -/
private theorem getLast?_splitFraction (h : cs.getLast? = some 'e') :
    (splitFraction cs).2.getLast? = some 'e' := by
  rw [splitFraction.eq_def]
  split
  · next ds =>
    refine getLast?_dropWhile (by decide) ?_
    obtain _ | ⟨d, ds⟩ := ds
    · exact absurd h (by decide)
    · simpa using h
  · exact h

/-- Nothing that ends in the mark of an exponent is a decimal number. -/
private theorem read?_eq_none (h : cs.getLast? = some 'e') : read? cs = none := by
  have hrest := readExponent?_eq_none
    (getLast?_splitFraction (getLast?_dropWhile (p := Char.isDigit) (by decide) h))
  rw [read?]
  split
  next fraction rest hsplit =>
    rw [hsplit] at hrest
    rw [hrest, Option.map_none, ite_self]

end Decimal

/-- **A literal does not end with an exponent mark**, the two words for truth values aside. -/
theorem Value.getLast?_ne_of_ofLiteral {text : String} {v : Value}
    (h : ofLiteral text = .ok v) (htrue : text ≠ "true") (hfalse : text ≠ "false") :
    ∀ c ∈ text.toList.getLast?, c ≠ 'e' := by
  rintro c hc rfl
  have hlast : text.toList.getLast? = some 'e' := hc
  have hmark : hasFloatMark text.toList = true :=
    List.any_eq_true.mpr ⟨'e', List.mem_of_getLast? hlast, by decide⟩
  have hfloat : readFloat? text.toList = none := by
    rcases hcs : text.toList with _ | ⟨d, ds⟩
    · rfl
    · rw [readFloat?]
      split
      · rw [← hcs, Decimal.read?_eq_none hlast, Option.map_none]
      · rfl
  rw [ofLiteral, ofLiteral?, if_neg htrue, if_neg hfalse, if_pos hmark, hfloat] at h
  exact absurd h (by simp)

end Formula
