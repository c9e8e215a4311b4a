import Formula.Text.Normal

/-!
# Lowercase forms

The characters of a text are brought into lower case one by one, by a table of runs of letters. Of
ASCII it has the capital letters and no others (`Text.lowercase_of_lt`).

The lowercase forms of a run lie where no run has letters: in front of all letters of another run,
behind all of them, or between them if that run has every second code point
(`Text.CaseRun.avoids`). Nor are there blank characters among them. So a character is normal, which
is to say that it is not blank and is its own lowercase form, as soon as it comes out of the table
(`Text.isNormal_of_mem_lowercase`).
-/

namespace Formula.Text

/-! ### ASCII -/

theorem isUpper_iff {c : Char} : c.isUpper = true ↔ 65 ≤ c.toNat ∧ c.toNat ≤ 90 := by
  have hc : c.isUpper = true ↔ 'A'.val ≤ c.val ∧ c.val ≤ 'Z'.val := decide_eq_true_iff
  exact hc

theorem isLower_iff {c : Char} : c.isLower = true ↔ 97 ≤ c.toNat ∧ c.toNat ≤ 122 := by
  have hc : c.isLower = (decide ('a'.val ≤ c.val) && decide (c.val ≤ 'z'.val)) := rfl
  rw [hc, Bool.and_eq_true, decide_eq_true_iff, decide_eq_true_iff]
  exact Iff.rfl

theorem isUpper_eq_false_of_isLower {c : Char} (h : c.isLower = true) : c.isUpper = false := by
  refine Bool.eq_false_iff.mpr fun hupper => ?_
  have hlower := isLower_iff.mp h
  have hle := isUpper_iff.mp hupper
  omega

theorem isAlpha_eq (c : Char) : c.isAlpha = (c.isUpper || c.isLower) := rfl

theorem isAlpha_of_isLower {c : Char} (h : c.isLower = true) : c.isAlpha = true := by
  rw [isAlpha_eq, h, Bool.or_true]

theorem isUpper_eq_false_of_isDigit {c : Char} (h : c.isDigit = true) : c.isUpper = false := by
  refine Bool.eq_false_iff.mpr fun hupper => ?_
  have hdigit : c.toNat ≤ 57 := (Char.isDigit_iff_toNat.mp h).2
  have hle := isUpper_iff.mp hupper
  omega

private theorem toLower_eq_self {c : Char} (h : c.isUpper = false) : c.toLower = c :=
  dif_neg fun hc => Bool.eq_false_iff.mp h (isUpper_iff.mpr hc)

/-- The capital letters of ASCII. -/
def capitals : List Char := "ABCDEFGHIJKLMNOPQRSTUVWXYZ".toList

private theorem mem_capitals {c : Char} (h : c.isUpper = true) : c ∈ capitals := by
  have hall : ∀ n < 26, Char.ofNat (65 + n) ∈ capitals := by decide
  obtain ⟨hle, hge⟩ := isUpper_iff.mp h
  have hc := hall (c.toNat - 65) (by omega)
  rwa [Nat.add_sub_cancel' hle, Char.ofNat_toNat] at hc

/-- What becomes of the capital letters of ASCII, one by one. -/
private theorem toLower_of_mem_capitals : ∀ c ∈ capitals,
    c.toLower = Char.ofNat (c.toNat + 32) ∧ c.toLower.toNat < 192 ∧
      c.toLower.isUpper = false ∧ isBlank c.toLower = isBlank c := by
  have hall : capitals.all fun c => c.toLower = Char.ofNat (c.toNat + 32) ∧
      c.toLower.toNat < 192 ∧ c.toLower.isUpper = false ∧ isBlank c.toLower = isBlank c := by
    decide +kernel
  exact fun c hc => of_decide_eq_true (List.all_eq_true.mp hall c hc)

/-- Up to the end of ASCII and somewhat beyond, only the first run has letters. -/
theorem find?_lowercaseRuns {n : Nat} (h : n < 192) :
    lowercaseRuns.find? (·.contains n) =
      if 65 ≤ n ∧ n ≤ 90 then some ⟨65, 90, 1, 32⟩ else none := by
  have hfirst : ∀ r ∈ lowercaseRuns.tail, 192 ≤ r.first := by decide +kernel
  have htail : lowercaseRuns.tail.find? (·.contains n) = none := by
    refine List.find?_eq_none.mpr fun r hr => ?_
    have hr := hfirst r hr
    rw [CaseRun.contains, decide_eq_true_iff]
    omega
  have hruns : lowercaseRuns = ⟨65, 90, 1, 32⟩ :: lowercaseRuns.tail := rfl
  rw [hruns, List.find?_cons, htail, CaseRun.contains, Nat.mod_one]
  by_cases hn : 65 ≤ n ∧ n ≤ 90 <;> simp [hn]

/-- Below code point 192 the capital letters of ASCII alone have another lowercase form. -/
theorem lowercase_of_lt {c : Char} (h : c.toNat < 192) :
    lowercase c = if c.isUpper then [Char.ofNat (c.toNat + 32)] else [c] := by
  have hdotted : c ≠ '\u0130' := by
    rintro rfl
    exact absurd h (by decide)
  rw [lowercase, if_neg hdotted, find?_lowercaseRuns h]
  by_cases hc : c.isUpper = true
  · rw [if_pos (isUpper_iff.mp hc), if_pos hc]
    rfl
  · rw [if_neg (mt isUpper_iff.mpr hc), if_neg hc]

/-- A small letter of ASCII has the lowercase form of its capital letter. -/
theorem lowercase_toLower (c : Char) : lowercase c.toLower = lowercase c := by
  rcases hc : c.isUpper with _ | _
  · rw [toLower_eq_self hc]
  · have hlt : c.toNat < 192 := Nat.lt_of_le_of_lt (isUpper_iff.mp hc).2 (by decide)
    obtain ⟨hlower, hlt', hupper, -⟩ := toLower_of_mem_capitals c (mem_capitals hc)
    rw [lowercase_of_lt hlt, lowercase_of_lt hlt', hupper, hc, ← hlower]
    rfl

/-- Whether a letter is capital does not matter to white space. -/
theorem isBlank_toLower (c : Char) : isBlank c.toLower = isBlank c := by
  rcases hc : c.isUpper with _ | _
  · rw [toLower_eq_self hc]
  · exact (toLower_of_mem_capitals c (mem_capitals hc)).2.2.2

/-! ### The table -/

namespace CaseRun

/-- The first of the lowercase forms of the letters. -/
def lowest (r : CaseRun) : Nat := (r.first + r.offset).toNat

/-- The last of them. -/
def highest (r : CaseRun) : Nat := (r.last + r.offset).toNat

/-- Are the lowercase forms of the first run apart from the letters of the second one? -/
def avoids (r q : CaseRun) : Bool :=
  Nat.blt q.last r.lowest || Nat.blt r.highest q.first ||
    Nat.ble q.first r.lowest && (r.first == r.last || r.step % q.step == 0) &&
      (r.lowest - q.first) % q.step != 0

variable {r q : CaseRun} {c d : Nat}

private theorem contains_eq_false_iff :
    q.contains d = false ↔ ¬(q.first ≤ d ∧ d ≤ q.last ∧ (d - q.first) % q.step = 0) :=
  decide_eq_false_iff_not

/-- The lowercase form of a letter, said from the first one of its run. -/
theorem toNat_add_offset (hr : 0 ≤ r.first + r.offset) (hc : r.contains c = true) :
    (c + r.offset).toNat = r.lowest + (c - r.first) ∧ (c + r.offset).toNat ≤ r.highest ∧
      r.step ∣ c - r.first ∧ (r.first = r.last → c - r.first = 0) := by
  rw [contains, decide_eq_true_iff] at hc
  refine ⟨?_, ?_, Nat.dvd_of_mod_eq_zero hc.2.2, ?_⟩
  · rw [lowest]
    omega
  · rw [highest]
    omega
  · omega

/-- A run that avoids another one has no lowercase form in it. -/
private theorem contains_eq_false (h : r.avoids q = true) (hr : 0 ≤ r.first + r.offset)
    (hc : r.contains c = true) : q.contains (c + r.offset).toNat = false := by
  obtain ⟨hform, hle, hdvd, hsingle⟩ := toNat_add_offset hr hc
  rw [contains_eq_false_iff]
  rintro ⟨hfirst, hlast, hstep⟩
  simp only [avoids, Bool.or_eq_true, Bool.and_eq_true, Nat.blt_eq, Nat.ble_eq, beq_iff_eq,
    bne_iff_ne] at h
  obtain (h | h) | ⟨⟨hle', hsteps⟩, hrest⟩ := h
  · omega
  · omega
  · -- the forms and the letters are both a number of steps of the second run apart
    have hbetween : q.step ∣ c - r.first := by
      obtain heq | hsteps := hsteps
      · rw [hsingle heq]
        exact Nat.dvd_zero _
      · exact Nat.dvd_trans (Nat.dvd_of_mod_eq_zero hsteps) hdvd
    refine hrest (Nat.mod_eq_zero_of_dvd ?_)
    refine (Nat.dvd_add_left hbetween).mp (Nat.dvd_of_mod_eq_zero ?_)
    rw [← Nat.sub_add_comm hle', ← hform]
    exact hstep

end CaseRun

/-- The ranges of code points whose characters are not normal. -/
def unsettledRuns : List CaseRun :=
  ⟨0x130, 0x130, 1, 0⟩ :: blankRanges.map (fun (first, last) => ⟨first, last, 1, 0⟩) ++
    lowercaseRuns

/-- The lowercase forms are settled: none of the runs of letters has one among the characters that
are not normal. -/
private theorem avoids_unsettledRuns :
    (lowercaseRuns.all fun r => unsettledRuns.all r.avoids) = true := by
  decide +kernel

/-- The character is not blank, and it is its own lowercase form. -/
def IsNormal (c : Char) : Prop := isBlank c = false ∧ lowercase c = [c]

private theorem toNat_ofNat (n : Nat) : (Char.ofNat n).toNat = n ∨ (Char.ofNat n).toNat = 0 := by
  by_cases h : n.isValidChar
  · rw [Char.ofNat, dif_pos h]
    exact .inl rfl
  · rw [Char.ofNat, dif_neg h]
    exact .inr rfl

private theorem isNormal_of_forall {c : Char}
    (h : ∀ q ∈ unsettledRuns, q.contains c.toNat = false) :
    IsNormal c := by
  simp only [unsettledRuns, List.cons_append, List.mem_cons, List.mem_append, List.mem_map,
    forall_eq_or_imp] at h
  obtain ⟨hdotted, hrest⟩ := h
  constructor
  · rw [isBlank, List.any_eq_false]
    rintro ⟨first, last⟩ hmem hle
    have hrange := hrest ⟨first, last, 1, 0⟩ (.inl ⟨_, hmem, rfl⟩)
    rw [CaseRun.contains_eq_false_iff, Nat.mod_one] at hrange
    exact hrange ⟨(of_decide_eq_true hle).1, (of_decide_eq_true hle).2, rfl⟩
  · have hne : c ≠ '\u0130' := by
      rintro rfl
      exact absurd hdotted (by decide)
    have hnone : lowercaseRuns.find? (·.contains c.toNat) = none :=
      List.find?_eq_none.mpr fun q hq => Bool.eq_false_iff.mp (hrest q (.inr hq))
    rw [lowercase, if_neg hne, hnone]

/-- The lowercase form of a letter is normal. -/
theorem isNormal_ofNat {r : CaseRun} {c : Nat} (hr : r ∈ lowercaseRuns)
    (hc : r.contains c = true) : IsNormal (Char.ofNat (c + r.offset).toNat) := by
  have hlowest : ∀ r ∈ lowercaseRuns, 0 ≤ r.first + r.offset := by decide +kernel
  have hpositive : ∀ q ∈ unsettledRuns, 0 < q.first := by decide +kernel
  refine isNormal_of_forall fun q hq => ?_
  obtain h | h := toNat_ofNat (c + r.offset).toNat
  · rw [h]
    have havoids := List.all_eq_true.mp (List.all_eq_true.mp avoids_unsettledRuns r hr) q hq
    exact CaseRun.contains_eq_false havoids (hlowest r hr) hc
  · -- what is no code point has been made the first one, which is in no run
    rw [h, CaseRun.contains_eq_false_iff]
    have hq := hpositive q hq
    omega

/-- What characters that are not blank are brought to is normal. -/
theorem isNormal_of_mem_lowercase {c d : Char} (hc : isBlank c = false) (hd : d ∈ lowercase c) :
    IsNormal d := by
  rw [lowercase] at hd
  split at hd
  · obtain rfl | rfl : d = 'i' ∨ d = '\u0307' := by simpa using hd
    · exact isNormal_of_forall (by decide +kernel)
    · exact isNormal_of_forall (by decide +kernel)
  · next hdotted =>
    split at hd
    · next r hr =>
      obtain rfl : d = Char.ofNat (c.toNat + r.offset).toNat := by simpa using hd
      have hcontains : r.contains c.toNat = true := by simpa using List.find?_some hr
      exact isNormal_ofNat (List.mem_of_find?_eq_some hr) hcontains
    · next hnone =>
      obtain rfl : d = c := by simpa using hd
      exact ⟨hc, by rw [lowercase, if_neg hdotted, hnone]⟩

/-- A normal character is no capital letter of ASCII. -/
theorem isUpper_eq_false_of_isNormal {c : Char} (h : IsNormal c) : c.isUpper = false := by
  refine Bool.eq_false_iff.mpr fun hc => ?_
  have hlt : c.toNat < 192 := Nat.lt_of_le_of_lt (isUpper_iff.mp hc).2 (by decide)
  obtain ⟨hlower, -, hupper, -⟩ := toLower_of_mem_capitals c (mem_capitals hc)
  have hself : c.toLower = c := by
    have hform := h.2
    rw [lowercase_of_lt hlt, if_pos hc, ← hlower] at hform
    exact List.singleton_inj.mp hform
  rw [hself, hc] at hupper
  cases hupper

end Formula.Text
