import Formula.CommandLine.Run
import Formula.Proofs.Evaluate.Lines

/-!
# The lines of the standard input

Lines that are typed one behind the other come out of the standard input as they were typed, but
for a carriage return in front of the end of a line. That is white space, so that the reports are
those of the lines (`Options.reportLines_of_typed`). What is typed behind a blank line does not
matter.

The bytes that end a line are not among those of any other character, because these are all
beyond ASCII (`toNat_of_mem_utf8EncodeChar`).
-/

namespace Formula.CommandLine

open Text (OneLine isBlank trim)

/-- The bytes of a text. -/
def bytes (text : String) : List UInt8 := text.toUTF8.data.toList

/-- What is typed when there are the given lines in front of the first blank one. -/
inductive Typed : List String → List UInt8 → Prop where
  /-- There is a blank line, and there may be anything behind it. -/
  | blank {text : String} (hline : OneLine text) (hblank : trim text.toList = [])
      (rest : List UInt8) : Typed [] (bytes text ++ newline :: rest)
  /-- The input ends, perhaps with a blank line that has no end. -/
  | done {text : String} (hline : OneLine text) (hblank : trim text.toList = []) :
      Typed [] (bytes text)
  /-- The last line has no end. -/
  | last (line : String) : Typed [line] (bytes line)
  | line (line : String) {lines : List String} {input : List UInt8} (h : Typed lines input) :
      Typed (line :: lines) (bytes line ++ newline :: input)

variable {text line : String} {bs rest : List UInt8} {b : UInt8} {c : Char}

/-! ### Bytes -/

/-- The bytes of a text are those of its characters, one after the other. -/
private theorem bytes_eq (text : String) :
    bytes text = text.toList.flatMap String.utf8EncodeChar := by
  have hofList : bytes (String.ofList text.toList) = _ := congrArg Array.toList
    (List.data_toByteArray (l := text.toList.flatMap String.utf8EncodeChar))
  rwa [String.ofList_toList] at hofList

private theorem fromUTF8?_bytes (text : String) :
    String.fromUTF8? (ByteArray.mk (bytes text).toArray) = some text := by
  rw [bytes, Array.toArray_toList]
  exact dif_pos text.isValidUTF8

/-- The bytes of characters beyond ASCII are all beyond ASCII. -/
theorem toNat_of_mem_utf8EncodeChar (hb : b.toNat < 128) (h : b ∈ String.utf8EncodeChar c) :
    c.toNat = b.toNat ∧ String.utf8EncodeChar c = [b] := by
  have hnat : c.val.toNat = c.toNat := rfl
  simp only [String.utf8EncodeChar] at h ⊢
  split_ifs at h with hone htwo hthree
  · rw [if_pos hone]
    obtain rfl := List.mem_singleton.mp h
    rw [UInt8.toNat_ofNat'] at hb ⊢
    exact ⟨by omega, rfl⟩
  all_goals
    simp only [List.mem_cons, List.not_mem_nil, or_false, ← UInt8.toNat_inj,
      UInt8.toNat_ofNat'] at h
    omega

/-- A byte of ASCII is in a text as a character of its own. -/
theorem exists_of_mem_bytes (hb : b.toNat < 128) (h : b ∈ bytes text) :
    ∃ c ∈ text.toList, c.toNat = b.toNat := by
  rw [bytes_eq] at h
  obtain ⟨c, hc, hbc⟩ := List.mem_flatMap.mp h
  exact ⟨c, hc, (toNat_of_mem_utf8EncodeChar hb hbc).1⟩

private theorem newline_not_mem_bytes (h : OneLine text) : newline ∉ bytes text := by
  intro hmem
  obtain ⟨c, hc, hnat⟩ := exists_of_mem_bytes (by decide) hmem
  obtain rfl : c = '\n' := Char.toNat_inj.mp hnat
  exact h hc

/-- A carriage return at the end of the bytes is one at the end of the text. -/
theorem exists_of_bytes_eq_append (h : bytes text = bs ++ [carriageReturn]) :
    ∃ text', text = text' ++ "\r" ∧ bytes text' = bs := by
  rw [bytes_eq] at h
  obtain hnil | ⟨cs, c, hcs⟩ := List.eq_nil_or_concat text.toList
  · rw [hnil] at h
    exact absurd h (by simp)
  · rw [hcs, List.concat_eq_append, List.flatMap_append, List.flatMap_singleton] at h
    have hmem : carriageReturn ∈ String.utf8EncodeChar c := by
      have hlast := congrArg List.getLast? h
      rw [List.getLast?_append_of_ne_nil _ String.utf8EncodeChar_ne_nil,
        List.getLast?_append_of_ne_nil _ (List.cons_ne_nil _ _)] at hlast
      exact List.mem_of_getLast? hlast
    obtain ⟨hnat, hencode⟩ := toNat_of_mem_utf8EncodeChar (by decide) hmem
    obtain rfl : c = '\r' := Char.toNat_inj.mp hnat
    rw [hencode] at h
    refine ⟨String.ofList cs, ?_, ?_⟩
    · rw [← String.toList_inj, hcs]
      simp
    · rw [bytes_eq, String.toList_ofList]
      exact List.append_inj_left' h rfl

/-! ### Lines -/

/-- Up to its first newline there is a line. -/
theorem splitLines_append (h : newline ∉ bs) (rest : List UInt8) :
    splitLines (bs ++ newline :: rest) = (bs ++ [newline]) :: splitLines rest := by
  induction bs with
  | nil => exact if_pos rfl
  | cons b bs ih =>
    obtain ⟨hb, hbs⟩ := not_or.mp (mt List.mem_cons.mpr h)
    rw [List.cons_append, splitLines, if_neg (Ne.symm hb), ih hbs]
    rfl

private theorem splitLines_of_not_mem (h : newline ∉ bs) (hne : bs ≠ []) :
    splitLines bs = [bs] := by
  induction bs with
  | nil => exact absurd rfl hne
  | cons b bs ih =>
    obtain ⟨hb, hbs⟩ := not_or.mp (mt List.mem_cons.mpr h)
    rw [splitLines, if_neg (Ne.symm hb)]
    obtain rfl | hne' := eq_or_ne bs []
    · rfl
    · rw [ih hbs hne']

private theorem withoutEnd_of_not_mem (h : newline ∉ bs) : withoutEnd bs = bs := by
  obtain rfl | ⟨before, b, rfl⟩ := List.eq_nil_or_concat bs
  · rfl
  · rw [List.concat_eq_append] at h ⊢
    have hb : b ≠ newline := fun hb => h (by simp [hb])
    rw [withoutEnd, List.reverse_append]
    exact if_neg hb

/-- A carriage return in front of the newline goes with it. -/
private theorem withoutEnd_carriageReturn (bs : List UInt8) :
    withoutEnd (bs ++ [carriageReturn] ++ [newline]) = bs := by
  rw [withoutEnd, List.reverse_append, List.reverse_append]
  exact List.reverse_reverse bs

private theorem withoutEnd_newline (h : ∀ before, bs ≠ before ++ [carriageReturn]) :
    withoutEnd (bs ++ [newline]) = bs := by
  obtain rfl | ⟨before, b, rfl⟩ := List.eq_nil_or_concat bs
  · rfl
  · rw [List.concat_eq_append] at h ⊢
    have hb : b ≠ carriageReturn := fun hb => h before (by rw [hb])
    rw [withoutEnd, List.reverse_append, List.reverse_append]
    change (if b = carriageReturn then before.reverse else b :: before.reverse).reverse = _
    rw [if_neg hb, List.reverse_cons, List.reverse_reverse]

/-- A line that has an end is read without a carriage return in front of it. -/
theorem exists_lineText? (text : String) :
    ∃ text', lineText? (bytes text ++ [newline]) = some text' ∧
      (text = text' ∨ text = text' ++ "\r") := by
  by_cases h : ∃ before, bytes text = before ++ [carriageReturn]
  · obtain ⟨before, hbefore⟩ := h
    obtain ⟨text', rfl, rfl⟩ := exists_of_bytes_eq_append hbefore
    refine ⟨text', ?_, .inr rfl⟩
    rw [lineText?, hbefore, withoutEnd_carriageReturn, fromUTF8?_bytes]
  · refine ⟨text, ?_, .inl rfl⟩
    rw [lineText?, withoutEnd_newline fun before hbefore => h ⟨before, hbefore⟩, fromUTF8?_bytes]

private theorem lineText?_bytes (h : OneLine text) : lineText? (bytes text) = some text := by
  rw [lineText?, withoutEnd_of_not_mem (newline_not_mem_bytes h), fromUTF8?_bytes]

private theorem trim_eq_nil_iff {cs : List Char} : trim cs = [] ↔ cs.all isBlank = true := by
  rw [trim, List.reverse_eq_nil_iff, List.dropWhile_eq_nil_iff, List.all_eq_true]
  constructor
  · intro h c hc
    have hdrop : ∀ d ∈ cs.dropWhile isBlank, isBlank d = true :=
      fun d hd => h d (List.mem_reverse.mpr hd)
    rw [← List.takeWhile_append_dropWhile (p := isBlank) (l := cs)] at hc
    obtain hc | hc := List.mem_append.mp hc
    · exact List.all_eq_true.mp List.all_takeWhile c hc
    · exact hdrop c hc
  · intro h d hd
    exact h d ((List.dropWhile_sublist isBlank).subset (List.mem_reverse.mp hd))

/-- A carriage return makes no difference between blank lines and others. -/
theorem all_isBlank_append (text : String) :
    (text ++ "\r").toList.all isBlank = text.toList.all isBlank := by
  rw [String.toList_append, List.all_append]
  exact Bool.and_true _

/-- A carriage return that is left at the end of a line is white space. -/
private theorem normalize_append (text : String) :
    Text.normalize (text ++ "\r") = Text.normalize text := by
  have hfilter : "\r".toList.filter (fun c => !isBlank c) = [] := by decide
  rw [Text.normalize, Text.normalize, Text.normalizeChars, Text.normalizeChars,
    String.toList_append, List.filter_append, hfilter, List.append_nil]

/-! ### What becomes of a line -/

private theorem Line.ofBytes_blank (h : trim text.toList = []) :
    Line.ofBytes (bytes text ++ [newline]) = .blank := by
  obtain ⟨text', htext', hcr⟩ := exists_lineText? text
  have hblank : text'.toList.all isBlank = true := by
    rw [← trim_eq_nil_iff.mp h]
    obtain rfl | rfl := hcr
    · rfl
    · rw [all_isBlank_append]
  rw [Line.ofBytes, htext']
  exact if_pos hblank

private theorem Line.exists_ofBytes (h : trim text.toList ≠ []) :
    ∃ text', Line.ofBytes (bytes text ++ [newline]) = .expression text' ∧
      Text.normalize text' = Text.normalize text := by
  obtain ⟨text', htext', hcr⟩ := exists_lineText? text
  have hblank : ¬text'.toList.all isBlank = true := by
    rw [ne_eq, trim_eq_nil_iff] at h
    obtain rfl | rfl := hcr
    · exact h
    · rwa [all_isBlank_append] at h
  refine ⟨text', ?_, ?_⟩
  · rw [Line.ofBytes, htext']
    exact if_neg hblank
  · obtain rfl | rfl := hcr
    · rfl
    · exact (normalize_append text').symm

/-- What matters of an expression is its normal form. -/
theorem Options.report_congr {text' : String} (o : Options)
    (h : Text.normalize text' = Text.normalize text) : o.report text' = o.report text := by
  rw [report, report, evaluate, evaluate, Rpn.ofText, Rpn.ofText, h]

/-- **What is typed is reported line by line**, up to the first blank line. -/
theorem Options.reportLines_of_typed (o : Options) {lines : List String} {input : List UInt8}
    (hlines : ∀ line ∈ lines, OneLine line ∧ trim line.toList ≠ []) (h : Typed lines input) :
    o.reportLines (splitLines input) = lines.map o.report := by
  induction h with
  | blank hline hblank rest =>
    rw [splitLines_append (newline_not_mem_bytes hline), reportLines, Line.ofBytes_blank hblank]
    rfl
  | @done text hline hblank =>
    obtain hnil | hne := eq_or_ne (bytes text) []
    · rw [hnil]
      rfl
    · have hbytes : Line.ofBytes (bytes text) = .blank := by
        rw [Line.ofBytes, lineText?_bytes hline]
        exact if_pos (trim_eq_nil_iff.mp hblank)
      rw [splitLines_of_not_mem (newline_not_mem_bytes hline) hne, reportLines, hbytes]
      rfl
  | last line =>
    obtain ⟨hline, hblank⟩ := hlines line (List.mem_singleton_self line)
    have hne : bytes line ≠ [] := by
      intro hnil
      obtain rfl : line = "" := by
        have hread := fromUTF8?_bytes line
        rw [hnil] at hread
        exact Option.some.inj (hread.symm.trans rfl)
      exact hblank rfl
    have hbytes : Line.ofBytes (bytes line) = .expression line := by
      rw [Line.ofBytes, lineText?_bytes hline]
      exact if_neg (mt trim_eq_nil_iff.mpr hblank)
    rw [splitLines_of_not_mem (newline_not_mem_bytes hline) hne, reportLines, hbytes]
    rfl
  | line line h ih =>
    obtain ⟨⟨hline, hblank⟩, hlines⟩ := List.forall_mem_cons.mp hlines
    obtain ⟨text', hbytes, hnormal⟩ := Line.exists_ofBytes hblank
    rw [splitLines_append (newline_not_mem_bytes hline), reportLines, hbytes]
    simp only [ih hlines, o.report_congr hnormal, List.map_cons]

end Formula.CommandLine
