import Formula.Proofs.Token.Munch

/-!
# Tokens as slices of a text

The tokens of a text are slices of it at their positions, one behind the other, and what is in
none of them is a separator (`Token.Slices`). In a text in normal form there are no separators,
so that the tokens fill it and a position is the number of bytes of the tokens in front.
-/

namespace Formula.Token

variable {position : Nat} {previous : Option Token} {cs : List Char} {ts : List Token}
  {error : Option ParseError} {t : Token}

/-! ### Bytes -/

private theorem byteLength_eq (cs : List Char) :
    byteLength cs = (String.ofList cs).utf8ByteSize := by
  induction cs with
  | nil => rfl
  | cons c cs ih =>
    rw [byteLength, ih, String.ofList_cons, String.utf8ByteSize_append,
      String.utf8ByteSize_singleton]

private theorem byteLength_toList (s : String) : byteLength s.toList = s.utf8ByteSize := by
  rw [byteLength_eq, String.ofList_toList]

/-- The number of bytes of the texts of tokens. -/
def bytes : List Token → Nat
  | [] => 0
  | t :: ts => t.text.utf8ByteSize + bytes ts

private theorem byteLength_pos (h : cs ≠ []) : 0 < byteLength cs := by
  obtain ⟨c, cs, rfl⟩ := List.exists_cons_of_ne_nil h
  rw [byteLength]
  have hc := c.utf8Size_pos
  omega

/-! ### The slices of a text -/

/-- The tokens are slices of the text. -/
structure Slices (text : String) (ts : List Token) : Prop where
  /-- Each token is found at its position. -/
  slice : ∀ t ∈ ts, ∃ before after,
    text = before ++ t.text ++ after ∧ before.utf8ByteSize = t.position
  increasing : ts.Pairwise fun t u => t.position < u.position
  /-- No token begins in front of the end of another. -/
  apart : ts.Pairwise fun t u => t.position + t.text.utf8ByteSize ≤ u.position
  /-- A character that is in none of the tokens is a separator. -/
  between : ∀ before c after, text = before ++ String.singleton c ++ after →
    (∀ t ∈ ts, before.utf8ByteSize < t.position ∨
      t.position + t.text.utf8ByteSize ≤ before.utf8ByteSize) → isSeparator c = true

/-- What is passed over and the rest. -/
theorem eq_takeWhile_append {rest : List Char} (h : cs.dropWhile isSeparator = rest) :
    cs = cs.takeWhile isSeparator ++ rest := by
  rw [← h, List.takeWhile_append_dropWhile]

private theorem span_eq_self (h : ∀ c ∈ cs, isSeparator c = false) :
    cs.takeWhile isSeparator = [] ∧ cs.dropWhile isSeparator = cs := by
  cases cs with
  | nil => exact ⟨rfl, rfl⟩
  | cons c cs =>
    have hc := Bool.eq_false_iff.mp (h c List.mem_cons_self)
    exact ⟨List.takeWhile_cons_of_neg hc, List.dropWhile_cons_of_neg hc⟩

/-- Where an element of two lists one behind the other is. -/
theorem mem_or_of_append_eq {α : Type} {xs ys before after : List α} {c : α}
    (h : xs ++ ys = before ++ c :: after) :
    (∃ v, xs = before ++ c :: v) ∨ ∃ u, before = xs ++ u ∧ ys = u ++ c :: after := by
  obtain ⟨u, hu, hys⟩ | ⟨v, hv, hc⟩ := List.append_eq_append_iff.mp h
  · exact .inr ⟨u, hu, hys⟩
  · obtain _ | ⟨d, v⟩ := v
    · exact .inr ⟨[], by simpa using hv.symm, hc.symm⟩
    · obtain ⟨rfl, -⟩ := List.cons.inj hc
      exact .inl ⟨v, hv⟩

namespace Cuts

/-- The slice of a token. -/
theorem exists_slice (h : Cuts position previous cs ts error) : ∀ t ∈ ts, ∃ before after,
    cs = before ++ t.text.toList ++ after ∧ t.position = position + byteLength before := by
  induction h with
  | done h => exact fun t ht => absurd ht List.not_mem_nil
  | stuck h hnone => exact fun t ht => absurd ht List.not_mem_nil
  | @word position place previous cs w rest k ts error h hw hk hplace hrest ih =>
    refine List.forall_mem_cons.mpr ⟨⟨cs.takeWhile isSeparator, rest, ?_, hplace⟩, fun t ht => ?_⟩
    · rw [String.toList_ofList, List.append_assoc]
      exact eq_takeWhile_append h
    · obtain ⟨before, after, rfl, ht⟩ := ih t ht
      refine ⟨cs.takeWhile isSeparator ++ w ++ before, after, ?_, ?_⟩
      · simp only [List.append_assoc] at h ⊢
        exact eq_takeWhile_append h
      · rw [ht, hplace, Word.byteLength_append, Word.byteLength_append, Nat.add_assoc,
          Nat.add_assoc, Nat.add_assoc]

/-- No token begins in front of the place where the scan began. -/
private theorem le_position (h : Cuts position previous cs ts error) :
    ∀ t ∈ ts, position ≤ t.position := by
  intro t ht
  obtain ⟨before, after, -, hposition⟩ := h.exists_slice t ht
  omega

private theorem text_ne_nil (h : Cuts position previous cs ts error) :
    ∀ t ∈ ts, t.text.toList ≠ [] := by
  induction h with
  | done h => exact fun t ht => absurd ht List.not_mem_nil
  | stuck h hnone => exact fun t ht => absurd ht List.not_mem_nil
  | word h hw hk hplace hrest ih =>
    refine List.forall_mem_cons.mpr ⟨?_, ih⟩
    rw [String.toList_ofList]
    exact (Lexeme.isWord_iff.mp hw.isWord).1

/-- A token ends in front of the next ones. -/
theorem apart (h : Cuts position previous cs ts error) :
    ts.Pairwise fun t u => t.position + byteLength t.text.toList ≤ u.position := by
  induction h with
  | done h => exact .nil
  | stuck h hnone => exact .nil
  | word h hw hk hplace hrest ih =>
    refine .cons (fun u hu => ?_) ih
    rw [String.toList_ofList]
    exact hrest.le_position u hu

/-- What is in none of the tokens is passed over. -/
theorem isSeparator_of_between (h : Cuts position previous cs ts none) {before after : List Char}
    {c : Char} (hcs : cs = before ++ c :: after)
    (hbetween : ∀ t ∈ ts, position + byteLength before < t.position ∨
      t.position + byteLength t.text.toList ≤ position + byteLength before) :
    isSeparator c = true := by
  generalize herror : none = error at h
  induction h generalizing before with
  | @done position previous cs h =>
    have hgap := eq_takeWhile_append h
    rw [List.append_nil] at hgap
    refine List.all_eq_true.mp (List.all_takeWhile (l := cs)) c ?_
    rw [← hgap, hcs]
    simp
  | stuck h hnone => cases herror
  | @word position place previous cs w rest k ts error h hw hk hplace hrest ih =>
    obtain ⟨hhead, htail⟩ := List.forall_mem_cons.mp hbetween
    simp only [String.toList_ofList] at hhead
    rw [eq_takeWhile_append h] at hcs
    obtain ⟨v, hv⟩ | ⟨u, rfl, hu⟩ := mem_or_of_append_eq hcs
    · refine List.all_eq_true.mp (List.all_takeWhile (l := cs)) c ?_
      rw [hv]
      simp
    · rw [Word.byteLength_append] at hhead htail
      obtain ⟨v, hv⟩ | ⟨u', rfl, hu'⟩ := mem_or_of_append_eq hu
      · -- the character is in the word
        have hpos := byteLength_pos (List.cons_ne_nil c v)
        rw [hv, Word.byteLength_append] at hhead
        omega
      · refine ih hu' (fun t ht => ?_) herror
        have hlast := htail t ht
        rw [Word.byteLength_append] at hlast
        omega

/-- Without separators the tokens fill the characters. -/
theorem flatMap_text (h : Cuts position previous cs ts none)
    (hcs : ∀ c ∈ cs, isSeparator c = false) : ts.flatMap (·.text.toList) = cs := by
  generalize herror : none = error at h
  induction h with
  | done h =>
    rw [(span_eq_self hcs).2] at h
    exact h.symm
  | stuck h hnone => cases herror
  | word h hw hk hplace hrest ih =>
    rw [(span_eq_self hcs).2] at h
    subst h
    rw [List.flatMap_cons, String.toList_ofList,
      ih (fun c hc => hcs c (List.mem_append_right _ hc)) herror]

/-- The position of a token is the number of bytes of the tokens in front of it. -/
theorem position_eq (h : Cuts position previous cs ts none)
    (hcs : ∀ c ∈ cs, isSeparator c = false) {before after : List Token}
    (hts : ts = before ++ t :: after) :
    t.position = position + byteLength (before.flatMap (·.text.toList)) := by
  generalize herror : none = error at h
  induction h generalizing before with
  | done h => exact absurd hts (by simp)
  | stuck h hnone => cases herror
  | word h hw hk hplace hrest ih =>
    obtain ⟨htake, hdrop⟩ := span_eq_self hcs
    rw [hdrop] at h
    rw [htake, byteLength, Nat.add_zero] at hplace
    subst h hplace
    obtain _ | ⟨b, before⟩ := before
    · obtain ⟨rfl, -⟩ := List.cons.inj hts
      rfl
    · obtain ⟨rfl, hrest'⟩ := List.cons.inj hts
      rw [ih (fun c hc => hcs c (List.mem_append_right _ hc)) hrest' herror, List.flatMap_cons,
        String.toList_ofList, Word.byteLength_append, Nat.add_assoc]

end Cuts

private theorem byteLength_flatMap_text (ts : List Token) :
    byteLength (ts.flatMap (·.text.toList)) = bytes ts := by
  induction ts with
  | nil => rfl
  | cons t ts ih =>
    rw [List.flatMap_cons, Word.byteLength_append, ih, byteLength_toList, bytes]

private theorem join_text (ts : List Token) :
    String.join (ts.map (·.text)) = String.ofList (ts.flatMap (·.text.toList)) := by
  induction ts with
  | nil => rfl
  | cons t ts ih =>
    rw [List.map_cons, String.join_cons, ih, List.flatMap_cons, String.ofList_append,
      String.ofList_toList]

/-! ### The tokens of a text -/

/-- **A text has these tokens** exactly if it is cut into them to its end. -/
theorem tokenize_eq_ok_iff {text : String} :
    tokenize text = .ok ts ↔ Cuts 0 none text.toList ts none := by
  rw [← scanFrom_eq_iff, tokenize, scan]
  obtain ⟨us, _ | e⟩ := scanFrom 0 none text.toList <;> simp

/-- A text is rejected exactly if it is cut up to an error. -/
theorem tokenize_eq_error_iff {text : String} {e : ParseError} :
    tokenize text = .error e ↔ ∃ ts, Cuts 0 none text.toList ts (some e) := by
  simp only [← scanFrom_eq_iff]
  rw [tokenize, scan]
  obtain ⟨us, _ | e'⟩ := scanFrom 0 none text.toList <;> simp

/-- The tokens of a text are slices of it at their positions. -/
theorem slices_of_tokenize {text : String} (h : tokenize text = .ok ts) : Slices text ts where
  slice := by
    intro t ht
    obtain ⟨before, after, hcs, hposition⟩ := (tokenize_eq_ok_iff.mp h).exists_slice t ht
    refine ⟨String.ofList before, String.ofList after, ?_, ?_⟩
    · rw [← String.ofList_toList (s := text), hcs, String.ofList_append, String.ofList_append,
        String.ofList_toList]
    · rw [← byteLength_eq, hposition, Nat.zero_add]
  increasing := by
    have hcuts := tokenize_eq_ok_iff.mp h
    refine hcuts.apart.imp_of_mem fun ht _ hle => ?_
    have hpos := byteLength_pos (hcuts.text_ne_nil _ ht)
    omega
  apart := by
    simpa only [byteLength_toList] using (tokenize_eq_ok_iff.mp h).apart
  between := by
    intro before c after htext hbetween
    have hchars : text.toList = before.toList ++ c :: after.toList := by simp [htext]
    refine (tokenize_eq_ok_iff.mp h).isSeparator_of_between hchars fun t ht => ?_
    simpa only [byteLength_toList, Nat.zero_add] using hbetween t ht

/-- The tokens of a text in normal form fill it. -/
theorem fills_of_tokenize {s : String} (h : tokenize (Text.normalize s) = .ok ts) :
    String.join (ts.map (·.text)) = Text.normalize s ∧
      ∀ before t after, ts = before ++ t :: after →
        t.position = bytes before := by
  have hcuts := tokenize_eq_ok_iff.mp h
  have hsettled : ∀ c ∈ (Text.normalize s).toList, isSeparator c = false := by
    rw [Text.normalize, String.toList_ofList]
    exact fun c hc => (Text.settled_of_mem_normalizeChars c hc).2
  refine ⟨?_, fun before t after hts => ?_⟩
  · rw [join_text, hcuts.flatMap_text hsettled, String.ofList_toList]
  · rw [hcuts.position_eq hsettled hts, byteLength_flatMap_text, Nat.zero_add]

/-- **Tokens are the longest words of a text.** A text is cut by taking the longest word at each
place, and it has these tokens or stops at the first character with which no word begins. The
tokens are slices of the text with separators in between, and those of a text in normal form
stand close together. -/
theorem tokenize_eq_iff_cuts (text : String) :
    (∀ ts, tokenize text = .ok ts ↔ Cuts 0 none text.toList ts none) ∧
      (∀ e, tokenize text = .error e ↔ ∃ ts, Cuts 0 none text.toList ts (some e)) ∧
      ∀ ts, tokenize text = .ok ts → Slices text ts ∧
        ∀ s, text = Text.normalize s → String.join (ts.map (·.text)) = text ∧
          ∀ before t after, ts = before ++ t :: after →
            t.position = bytes before := by
  refine ⟨fun ts => tokenize_eq_ok_iff, fun e => tokenize_eq_error_iff, fun ts h => ?_⟩
  refine ⟨slices_of_tokenize h, fun s hs => ?_⟩
  subst hs
  exact fills_of_tokenize h

/-- In `2 * ceilings°` the name is not cut at the function in front of it, and the sign for
degrees, of two bytes, ends the text. -/
theorem tokenize_two_ceilings :
    let ts : List Token := [⟨"2", .value, 0⟩, ⟨"*", .operator ⟨.multiply, 5, .fixed 2, false⟩, 2⟩,
      ⟨"ceilings", .symbol, 4⟩, ⟨"°", .operator ⟨.degrees, 3, .fixed 1, false⟩, 12⟩]
    tokenize "2 * ceilings°" = .ok ts ∧ Cuts 0 none "2 * ceilings°".toList ts none ∧
      Slices "2 * ceilings°" ts := by
  intro ts
  have h : tokenize "2 * ceilings°" = .ok ts := by decide +kernel
  have hmunch := tokenize_eq_iff_cuts "2 * ceilings°"
  exact ⟨h, (hmunch.1 ts).mp h, (hmunch.2.2 ts h).1⟩

end Formula.Token
