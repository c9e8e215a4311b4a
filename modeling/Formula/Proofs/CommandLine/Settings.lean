import Formula.CommandLine.Run
import Mathlib.Data.List.Find
import Mathlib.Data.List.Forall2

/-!
# The settings of a command line

A setting gives a value to a variable, or to all variables that have none. There are several ways
to write one (`Setting.Written`), and words in which nothing but settings are written are read as
the options that the settings make up (`Request.ofArguments_settings`), with the words behind
`--` as expressions (`Request.ofArguments_lines`).

What a variable is in the end is said by `Resolves`, without the options: the last definition of
its name counts, and then the setting for all others.
-/

namespace Formula.CommandLine

/-- The expression has this value without variables. -/
def Denotes (expression : String) (v : Value) : Prop :=
  (evaluate (σ := Unit) Lookup.noVariables expression ()).1 = .ok v

/-- A setting of the command line. -/
inductive Setting where
  /-- The variable has the value of the expression. -/
  | define (name expression : String)
  /-- All variables that are not defined have it. -/
  | default (expression : String)

namespace Setting

/-- The option of a setting. -/
def option : Setting → ValueOption
  | define _ _ => .define
  | default _ => .default

/-- The value that the option is given. -/
def text : Setting → String
  | define name expression => name ++ "=" ++ expression
  | default expression => expression

/-- The name of the option. -/
def key : Setting → String
  | define _ _ => "define"
  | default _ => "default"

/-- The setting can be read: its expression has a value, and a name for it stands in front of
the first equals sign. -/
def Readable : Setting → Prop
  | define name expression =>
    '=' ∉ name.toList ∧ Text.normalize name ≠ "" ∧ ∃ v, Denotes expression v
  | default expression => ∃ v, Denotes expression v

/-- The words in which a setting is written. A value in a word of its own does not begin with
a dash. -/
inductive Written : Setting → List String → Prop where
  | letter {name expression : String} (h : (name ++ "=" ++ expression).toList.head? ≠ some '-') :
      Written (define name expression) ["-d", name ++ "=" ++ expression]
  | letterAttached (name expression : String) :
      Written (define name expression) ["-d" ++ (name ++ "=" ++ expression)]
  | letterEquals (name expression : String) :
      Written (define name expression) ["-d=" ++ (name ++ "=" ++ expression)]
  | long {setting : Setting} (h : setting.text.toList.head? ≠ some '-') :
      Written setting ["--" ++ setting.key, setting.text]
  | longEquals (setting : Setting) :
      Written setting ["--" ++ setting.key ++ "=" ++ setting.text]

/-- The setting is about the variable of this name. -/
def Names (name : String) : Setting → Prop
  | define written _ => Text.normalize written = name
  | default _ => False

/-- The expression of a setting. -/
def expression : Setting → String
  | define _ expression => expression
  | default expression => expression

end Setting

/-- The settings can be read one behind the other. -/
structure Acceptable (settings : List Setting) : Prop where
  readable : ∀ setting ∈ settings, setting.Readable
  /-- There is no more than one value for all variables that are not defined. -/
  once : settings.countP (·.option = .default) ≤ 1

/-- What a variable is by the settings. -/
inductive Resolves (settings : List Setting) (name : String) : Except Error Value → Prop where
  /-- The last definition of the name counts. -/
  | defined {before after : List Setting} {setting : Setting} {v : Value}
      (hsettings : settings = before ++ setting :: after) (hname : setting.Names name)
      (hlast : ∀ later ∈ after, ¬later.Names name) (hv : Denotes setting.expression v) :
      Resolves settings name (.ok v)
  | default {expression : String} {v : Value} (hnone : ∀ setting ∈ settings, ¬setting.Names name)
      (h : .default expression ∈ settings) (hv : Denotes expression v) :
      Resolves settings name (.ok v)
  | unknown (hnone : ∀ setting ∈ settings, ¬setting.Names name)
      (h : ∀ setting ∈ settings, setting.option ≠ .default) :
      Resolves settings name (.error (.runtime (.unknownVariable name)))

/-! ### The values of settings -/

/-- The texts that are taken for constants are those that denote a value. -/
private theorem constant_eq_ok_iff {text : String} {v : Value} :
    constant text = .ok v ↔ Denotes text v := by
  rw [Denotes]
  rcases hr : evaluate (σ := Unit) Lookup.noVariables text () with ⟨r, s⟩
  have hrun : (evaluate (σ := Unit) Lookup.noVariables text).run () = (r, s) := hr
  rw [constant, hrun]
  obtain (e | e) | w := r <;> simp

/-- A text is split at its first equals sign. -/
private theorem splitEquals?_append {cs : List Char} (h : '=' ∉ cs) (ds : List Char) :
    splitEquals? (cs ++ '=' :: ds) = some (cs, ds) := by
  induction cs with
  | nil => rfl
  | cons c cs ih =>
    obtain ⟨hc, hcs⟩ := not_or.mp (mt List.mem_cons.mpr h)
    rw [List.cons_append, splitEquals?, ih hcs]
    · rfl
    · exact fun h => hc h.symm

private theorem splitEquals?_eq_none {cs : List Char} (h : '=' ∉ cs) : splitEquals? cs = none := by
  induction cs with
  | nil => rfl
  | cons c cs ih =>
    obtain ⟨hc, hcs⟩ := not_or.mp (mt List.mem_cons.mpr h)
    rw [splitEquals?, ih hcs]
    · rfl
    · exact fun h => hc h.symm

/-- The first equals sign parts a text. -/
theorem splitEquals?_eq_some {cs before behind : List Char}
    (h : splitEquals? cs = some (before, behind)) :
    cs = before ++ '=' :: behind ∧ '=' ∉ before := by
  fun_induction splitEquals? cs generalizing before with
  | case1 => cases h
  | case2 cs =>
    obtain ⟨rfl, rfl⟩ := Prod.mk.inj (Option.some.inj h)
    exact ⟨rfl, List.not_mem_nil⟩
  | case3 c cs hc ih =>
    obtain ⟨⟨before', behind'⟩, hsplit, hpair⟩ := Option.map_eq_some_iff.mp h
    obtain ⟨rfl, rfl⟩ := Prod.mk.inj hpair
    obtain ⟨rfl, hbefore⟩ := ih hsplit
    exact ⟨rfl, List.not_mem_cons_of_ne_of_not_mem (fun h => hc h.symm) hbefore⟩

private theorem toList_definition (name expression : String) :
    (name ++ "=" ++ expression).toList = name.toList ++ '=' :: expression.toList := by
  simp

/-- **What a definition is.** A text defines a variable if there is a name in front of its first
equals sign, which is brought into normal form, and an expression with a value behind it. -/
theorem definition_eq_ok_iff {text name : String} {v : Value} :
    definition text = .ok (name, v) ↔ ∃ written expression,
      text = written ++ "=" ++ expression ∧ '=' ∉ written.toList ∧
        Text.normalize written = name ∧ name ≠ "" ∧ Denotes expression v := by
  have hname : ∀ cs, Text.normalizeChars cs = [] ↔ String.ofList (Text.normalizeChars cs) = "" :=
    fun cs => String.ofList_eq_empty_iff.symm
  constructor
  · intro h
    rw [definition] at h
    split at h
    · cases h
    · next before behind hsplit =>
      obtain ⟨htext, hequals⟩ := splitEquals?_eq_some hsplit
      split_ifs at h with hempty
      cases hv : constant (String.ofList behind) with
      | error fault =>
        rw [hv] at h
        cases h
      | ok w =>
        rw [hv] at h
        obtain ⟨rfl, rfl⟩ := Prod.mk.inj (Except.ok.inj h)
        refine ⟨String.ofList before, String.ofList behind, ?_, ?_, ?_, ?_, ?_⟩
        · rw [← String.toList_inj, toList_definition, String.toList_ofList, String.toList_ofList,
            htext]
        · rwa [String.toList_ofList]
        · rw [Text.normalize, String.toList_ofList]
        · exact mt (hname before).mpr hempty
        · exact constant_eq_ok_iff.mp hv
  · rintro ⟨written, expression, rfl, hequals, rfl, hempty, hv⟩
    rw [definition, toList_definition, splitEquals?_append hequals]
    simp only [String.ofList_toList, constant_eq_ok_iff.mpr hv, hname]
    exact if_neg hempty

namespace Setting

variable {setting : Setting}

/-- The definition that a setting makes. -/
def definition? : Setting → Option (String × Value)
  | define name expression => (constant expression).toOption.map (Text.normalize name, ·)
  | default _ => none

/-- The value that a setting gives to all variables that are not defined. -/
def fallback? : Setting → Option Value
  | define _ _ => none
  | default expression => (constant expression).toOption

end Setting

/-- The options that settings make up. -/
def Options.ofSettings (settings : List Setting) : Options :=
  ⟨settings.filterMap Setting.definition?, settings.findSome? Setting.fallback?, false, []⟩

namespace Reading

variable {r : Reading} {o o' : Options} {setting : Setting} {words : List String}

/-- The reading of settings that make up the options. -/
structure Settles (r : Reading) (o : Options) : Prop where
  trailing : r.trailing = false
  settle : r.settle = .ok ⟨o, none, false⟩

/-! ### The words of a setting -/

private theorem word_short (h : r.trailing = false) : r.word "-d" = r.named .define := by
  rw [word, if_neg (by simp [h])]
  rfl

/-- The value of an option may follow its letter at once. -/
private theorem word_shortAttached (h : r.trailing = false) {text : String} {c : Char}
    {cs : List Char} (htext : text.toList = c :: cs) (hc : c ≠ '=') :
    r.word ("-d" ++ text) = r.attached .define text := by
  have hword : ("-d" ++ text).toList = '-' :: 'd' :: c :: cs := by
    rw [String.toList_append, htext]
    rfl
  have hvalue : attachedValue (c :: cs) = text := by
    rw [attachedValue, ← htext, String.ofList_toList]
    exact fun _ h => hc (List.cons.inj h).1
  rw [word, if_neg (by simp [h]), hword]
  change r.attached .define (attachedValue (c :: cs)) = _
  rw [hvalue]

/-- An equals sign between the letter of an option and its value is left out. -/
private theorem word_shortEquals (h : r.trailing = false) (text : String) :
    r.word ("-d=" ++ text) = r.attached .define text := by
  have hword : ("-d=" ++ text).toList = '-' :: 'd' :: '=' :: text.toList := by
    rw [String.toList_append]
    rfl
  rw [word, if_neg (by simp [h]), hword]
  change r.attached .define (String.ofList text.toList) = _
  rw [String.ofList_toList]

/-- The names of options are words without an equals sign. -/
theorem exists_toList_key (setting : Setting) :
    ∃ c cs, setting.key.toList = c :: cs ∧ '=' ∉ setting.key.toList := by
  cases setting with
  | define name expression =>
    refine ⟨'d', "efine".toList, ?_, ?_⟩ <;> rw [Setting.key] <;> decide
  | default expression =>
    refine ⟨'d', "efault".toList, ?_, ?_⟩ <;> rw [Setting.key] <;> decide

private theorem long_key (r : Reading) (setting : Setting) :
    r.long setting.key.toList = r.named setting.option := by
  obtain ⟨-, -, -, hequals⟩ := exists_toList_key setting
  unfold long
  simp only [splitEquals?_eq_none hequals, String.ofList_toList]
  cases setting <;> rfl

/-- The value of a long option may follow its name behind an equals sign. -/
private theorem long_keyEquals (r : Reading) (setting : Setting) (text : String) :
    r.long (setting.key.toList ++ '=' :: text.toList) = r.attached setting.option text := by
  obtain ⟨-, -, -, hequals⟩ := exists_toList_key setting
  unfold long
  simp only [splitEquals?_append hequals, String.ofList_toList]
  cases setting <;> rfl

/-- Behind two dashes stands the name of an option. -/
theorem word_eq_long (h : r.trailing = false) {text : String} {c : Char} {cs : List Char}
    (htext : text.toList = '-' :: '-' :: c :: cs) : r.word text = r.long (c :: cs) := by
  rw [word, if_neg (by simp [h]), htext]
  rfl

private theorem word_long (h : r.trailing = false) (setting : Setting) :
    r.word ("--" ++ setting.key) = r.named setting.option := by
  obtain ⟨c, cs, hkey, -⟩ := exists_toList_key setting
  have hword : ("--" ++ setting.key).toList = '-' :: '-' :: c :: cs := by
    rw [String.toList_append, hkey]
    rfl
  rw [word_eq_long h hword, ← hkey, long_key]

private theorem word_longEquals (h : r.trailing = false) (setting : Setting) (text : String) :
    r.word ("--" ++ setting.key ++ "=" ++ text) = r.attached setting.option text := by
  obtain ⟨c, cs, hkey, -⟩ := exists_toList_key setting
  have hword : ("--" ++ setting.key ++ "=" ++ text).toList =
      '-' :: '-' :: c :: (cs ++ '=' :: text.toList) := by
    rw [toList_definition, String.toList_append, hkey]
    rfl
  rw [word_eq_long h hword, ← List.cons_append, ← hkey, long_keyEquals]

private theorem word_plain (h : r.trailing = false) {text : String}
    (htext : text.toList.head? ≠ some '-') :
    r.word text = r.plain text := by
  rw [word, if_neg (by simp [h])]
  split
  · next heq => exact absurd (by rw [heq]; rfl) htext
  · next heq => exact absurd (by rw [heq]; rfl) htext
  · next heq => exact absurd (by rw [heq]; rfl) htext
  · rfl

/-! ### Reading a setting -/

/-- The name of an option alone waits for its value. -/
private theorem Settles.named (h : r.Settles o) (option : ValueOption) :
    r.named option = .ok ⟨o, some ⟨option, none⟩, false⟩ := by
  rw [Reading.named, h.settle]
  rfl

/-- An option with its value settles what was pending and is then accepted. -/
private theorem Settles.attached (h : r.Settles o) (option : ValueOption) (text : String) :
    r.attached option text = accept ⟨o, none, false⟩ option text := by
  rw [Reading.attached, h.settle]
  rfl

private theorem settles_of_settled (o : Options) : Settles ⟨o, none, false⟩ o := ⟨rfl, rfl⟩

/-- An option and its value are taken in when they are settled. -/
theorem settles_of_pending {option : ValueOption} {text : String}
    (h : accept ⟨o, none, false⟩ option text = .ok ⟨o', none, false⟩) :
    Settles ⟨o, some ⟨option, some text⟩, false⟩ o' := ⟨rfl, h⟩

/-- The words of a setting are taken in with what the setting says. -/
theorem exists_settles_of_written (hr : r.Settles o) (hwords : setting.Written words)
    (hreadable : setting.Readable)
    (h : accept ⟨o, none, false⟩ setting.option setting.text = .ok ⟨o', none, false⟩) :
    ∃ r', words.foldlM word r = .ok r' ∧ Settles r' o' := by
  have happart : ∀ w, r.word w = r.named setting.option →
      setting.text.toList.head? ≠ some '-' →
        ∃ r', [w, setting.text].foldlM word r = .ok r' ∧ Settles r' o' := by
    intro w hw hplain
    refine ⟨_, ?_, settles_of_pending h⟩
    rw [List.foldlM_cons, hw, hr.named]
    change (word ⟨o, some ⟨setting.option, none⟩, false⟩ setting.text >>= pure) = _
    rw [bind_pure, word_plain rfl hplain]
    rfl
  have htogether : ∀ w, r.word w = r.attached setting.option setting.text →
      ∃ r', [w].foldlM word r = .ok r' ∧ Settles r' o' := by
    intro w hw
    refine ⟨_, ?_, settles_of_settled o'⟩
    rw [List.foldlM_cons, hw, hr.attached, h]
    rfl
  cases hwords with
  | letter hplain => exact happart "-d" (word_short hr.trailing) hplain
  | letterAttached name expression =>
    -- there is a name in front of the equals sign
    obtain ⟨hequals, hname, -⟩ := hreadable
    have hne : name.toList ≠ [] := by
      rintro hnil
      exact hname (by rw [Text.normalize, hnil]; rfl)
    obtain ⟨c, cs, hcs⟩ := List.exists_cons_of_ne_nil hne
    have hc : c ≠ '=' := fun h => hequals (by rw [hcs, h]; exact List.mem_cons_self)
    have htext : (name ++ "=" ++ expression).toList = c :: (cs ++ '=' :: expression.toList) := by
      rw [toList_definition, hcs, List.cons_append]
    exact htogether _ (word_shortAttached hr.trailing htext hc)
  | letterEquals name expression => exact htogether _ (word_shortEquals hr.trailing _)
  | long hplain => exact happart _ (word_long hr.trailing setting) hplain
  | longEquals => exact htogether _ (word_longEquals hr.trailing setting _)

/-- What a setting says is taken in. -/
theorem accept_setting {before : List Setting} (hreadable : setting.Readable)
    (hdefault : setting.option = .default → ∀ s ∈ before, s.option ≠ .default) :
    accept ⟨.ofSettings before, none, false⟩ setting.option setting.text =
      .ok ⟨.ofSettings (before ++ [setting]), none, false⟩ := by
  cases setting with
  | define name expression =>
    obtain ⟨hequals, hname, v, hv⟩ := hreadable
    have hdefinition : definition (name ++ "=" ++ expression) = .ok (Text.normalize name, v) :=
      definition_eq_ok_iff.mpr ⟨name, expression, rfl, hequals, rfl, hname, hv⟩
    simp [accept, Setting.option, Setting.text, hdefinition, Options.ofSettings,
      Setting.definition?, Setting.fallback?, constant_eq_ok_iff.mpr hv, Except.toOption]
  | default expression =>
    obtain ⟨v, hv⟩ := hreadable
    have hnone : before.findSome? Setting.fallback? = none := by
      refine List.findSome?_eq_none_iff.mpr fun s hs => ?_
      cases s with
      | define name expression => rfl
      | default expression => exact absurd rfl (hdefault rfl _ hs)
    simp [accept, Setting.option, Setting.text, Options.ofSettings, hnone, Setting.definition?,
      Setting.fallback?, constant_eq_ok_iff.mpr hv, Except.toOption]

/-- Settings are taken in one behind the other. -/
theorem exists_settles {before settings : List Setting} {written : List (List String)}
    (h : Acceptable (before ++ settings))
    (hwritten : List.Forall₂ Setting.Written settings written)
    (hr : r.Settles (.ofSettings before)) :
    ∃ r', written.flatten.foldlM word r = .ok r' ∧
      r'.Settles (.ofSettings (before ++ settings)) := by
  induction hwritten generalizing r before with
  | nil => exact ⟨r, rfl, by rwa [List.append_nil]⟩
  | @cons setting words settings written hwords _ ih =>
    have hreadable := h.readable setting (by simp)
    have hdefault : setting.option = .default → ∀ s ∈ before, s.option ≠ .default := by
      intro hsetting s hs hs'
      have honce := h.once
      have hpos := List.countP_pos_iff (p := fun s : Setting => s.option = .default).mpr
        ⟨s, hs, decide_eq_true hs'⟩
      rw [List.countP_append, List.countP_cons, if_pos (decide_eq_true hsetting)] at honce
      omega
    obtain ⟨r₁, hr₁, hsettles⟩ :=
      exists_settles_of_written hr hwords hreadable (accept_setting hreadable hdefault)
    rw [List.append_cons] at h ⊢
    obtain ⟨r', hr', hsettles'⟩ := ih h hsettles
    refine ⟨r', ?_, hsettles'⟩
    rw [List.flatten_cons, List.foldlM_append, hr₁]
    exact hr'

private theorem exists_settles_empty {settings : List Setting} {written : List (List String)}
    (h : Acceptable settings) (hwritten : List.Forall₂ Setting.Written settings written) :
    ∃ r, written.flatten.foldlM word .empty = .ok r ∧ r.Settles (.ofSettings settings) := by
  have hempty : empty.Settles (.ofSettings []) := ⟨rfl, rfl⟩
  have hnil : Acceptable ([] ++ settings) := h
  exact exists_settles hnil hwritten hempty

/-! ### Reading expressions -/

variable {lines : List String}

/-- What an option sets does not depend on whether the options have ended. -/
private theorem accept_trailing (r : Reading) (option : ValueOption) (text : String) (b : Bool) :
    accept { r with trailing := b } option text =
      (r.accept option text).map ({ · with trailing := b }) := by
  cases option with
  | define =>
    simp only [accept]
    cases definition text <;> rfl
  | default =>
    simp only [accept]
    split_ifs
    · rfl
    · cases constant text <;> rfl

/-- The word `--` leaves an option to be settled that waits for it. -/
theorem settle_trailing (h : r.Settles o) :
    settle { r with trailing := true } = .ok ⟨o, none, true⟩ := by
  obtain ⟨options, pending, trailing⟩ := r
  obtain ⟨htrailing, hsettle⟩ := h
  obtain rfl : trailing = false := htrailing
  obtain _ | ⟨option, _ | text⟩ := pending
  · obtain ⟨rfl, -⟩ := Reading.mk.inj (Except.ok.inj hsettle)
    rfl
  · cases hsettle
  · change accept { (⟨options, none, false⟩ : Reading) with trailing := true } option text = _
    have haccept : accept ⟨options, none, false⟩ option text = .ok ⟨o, none, false⟩ := hsettle
    rw [accept_trailing, haccept]
    rfl

/-- Behind `--` every word is an expression. -/
private theorem word_of_trailing (h : r.trailing = true) (text : String) :
    r.word text = r.expression text :=
  if_pos h

/-- Behind the word `--` all words are expressions. -/
theorem foldlM_word_of_trailing (o : Options) (lines : List String) :
    lines.foldlM word ⟨o, none, true⟩ =
      .ok ⟨{ o with expressions := o.expressions ++ lines }, none, true⟩ := by
  induction lines generalizing o with
  | nil =>
    rw [List.append_nil]
    rfl
  | cons line lines ih =>
    rw [List.foldlM_cons, word_of_trailing rfl]
    change lines.foldlM word ⟨{ o with expressions := o.expressions ++ [line] }, none, true⟩ = _
    rw [ih, List.append_assoc, List.singleton_append]

private theorem foldlM_word_expressions (h : r.Settles o) (hlines : lines ≠ []) :
    ("--" :: lines).foldlM word r =
      .ok ⟨{ o with expressions := o.expressions ++ lines }, none, true⟩ := by
  obtain ⟨line, lines, rfl⟩ := List.exists_cons_of_ne_nil hlines
  have hdashes : r.word "--" = .ok { r with trailing := true } := by
    rw [word, if_neg (by simp [h.trailing])]
    rfl
  have hline : word { r with trailing := true } line =
      .ok ⟨{ o with expressions := o.expressions ++ [line] }, none, true⟩ := by
    rw [word_of_trailing rfl, expression, settle_trailing h]
    rfl
  rw [List.foldlM_cons, hdashes]
  change (line :: lines).foldlM word { r with trailing := true } = _
  rw [List.foldlM_cons, hline]
  change lines.foldlM word ⟨{ o with expressions := o.expressions ++ [line] }, none, true⟩ = _
  rw [foldlM_word_of_trailing, List.append_assoc, List.singleton_append]

end Reading

/-! ### Command lines -/

variable {settings : List Setting} {written : List (List String)} {lines : List String}

/-- **Settings are read as the options that they make up.** -/
theorem Request.ofArguments_settings (h : Acceptable settings)
    (hwritten : List.Forall₂ Setting.Written settings written) :
    Request.ofArguments written.flatten = .ok (.evaluate (.ofSettings settings)) := by
  obtain ⟨r, hr, hsettles⟩ := Reading.exists_settles_empty h hwritten
  have hread : (do (← written.flatten.foldlM Reading.word .empty).settle : Step Reading) =
      .ok ⟨.ofSettings settings, none, false⟩ := by
    refine Eq.trans (congrArg (· >>= Reading.settle) hr) ?_
    exact hsettles.settle
  rw [Request.ofArguments, hread]

/-- **Words behind `--` are read as expressions.** -/
theorem Request.ofArguments_lines (h : Acceptable settings)
    (hwritten : List.Forall₂ Setting.Written settings written) (hlines : lines ≠ []) :
    Request.ofArguments (written.flatten ++ "--" :: lines) =
      .ok (.evaluate { Options.ofSettings settings with expressions := lines }) := by
  obtain ⟨r, hr, hsettles⟩ := Reading.exists_settles_empty h hwritten
  have hwords : (written.flatten ++ "--" :: lines).foldlM Reading.word .empty =
      (.ok ⟨{ Options.ofSettings settings with expressions := lines }, none, true⟩ :
        Step Reading) := by
    rw [List.foldlM_append]
    refine Eq.trans (congrArg (· >>= fun r => ("--" :: lines).foldlM Reading.word r) hr) ?_
    exact Reading.foldlM_word_expressions hsettles hlines
  rw [Request.ofArguments, hwords]
  rfl

/-! ### What a variable is -/

instance (name : String) : DecidablePred (Setting.Names name)
  | .define written _ => inferInstanceAs (Decidable (Text.normalize written = name))
  | .default _ => .isFalse id

/-- The definition of a setting that can be read, if it is one of the name. -/
theorem Setting.any_definition? {setting : Setting} (h : setting.Readable) (name : String) :
    setting.definition?.any (·.1 == name) = decide (setting.Names name) := by
  cases setting with
  | define written expression =>
    obtain ⟨-, -, v, hv⟩ := h
    rw [definition?, constant_eq_ok_iff.mpr hv]
    exact beq_eq_decide (Text.normalize written) name
  | default expression => rfl

/-- The last definition of a name, if there is one. -/
theorem find?_definitions (h : Acceptable settings) (name : String) :
    (Options.ofSettings settings).definitions.reverse.find? (·.1 == name) =
      (settings.reverse.find? fun setting => setting.Names name).bind Setting.definition? := by
  rw [Options.ofSettings, ← List.filterMap_reverse, List.find?_filterMap]
  refine congrArg (Option.bind · _) (List.find?_congr fun setting hsetting => ?_)
  exact Setting.any_definition? (h.readable setting (List.mem_reverse.mp hsetting)) name

/-- **A variable is what the last definition of its name says**, or else what all others are. -/
theorem resolves_lookup (h : Acceptable settings) (name : String) :
    Resolves settings name ((Options.ofSettings settings).lookup name ()).1 := by
  rw [Options.lookup, Options.value?, find?_definitions h]
  cases hfind : settings.reverse.find? fun setting => setting.Names name with
  | some setting =>
    -- the first definition of the reversed row is the last one that has been written
    obtain ⟨hname, after, before, hreverse, hafter⟩ := List.find?_eq_some_iff_append.mp hfind
    have hsettings : settings = before.reverse ++ setting :: after.reverse := by
      rw [← List.reverse_reverse settings, hreverse, List.reverse_append, List.reverse_cons,
        List.append_assoc, List.singleton_append]
    have hnames : setting.Names name := of_decide_eq_true hname
    obtain ⟨written, expression⟩ | expression := setting
    · have hmem : Setting.define written expression ∈ settings := by simp [hsettings]
      obtain ⟨-, -, v, hv⟩ := h.readable _ hmem
      simp only [Option.bind_some, Setting.definition?, constant_eq_ok_iff.mpr hv, Except.toOption,
        Option.map_some]
      refine .defined hsettings hnames (fun later hlater => ?_) hv
      simpa using hafter later (List.mem_reverse.mp hlater)
    · exact absurd hnames id
  | none =>
    have hnone : ∀ setting ∈ settings, ¬setting.Names name := by
      intro setting hsetting
      simpa using List.find?_eq_none.mp hfind setting (List.mem_reverse.mpr hsetting)
    rw [Option.bind_none]
    cases hfallback : (Options.ofSettings settings).fallback with
    | some v =>
      obtain ⟨setting, hsetting, hv⟩ := List.exists_of_findSome?_eq_some hfallback
      obtain ⟨written, expression⟩ | expression := setting
      · cases hv
      · obtain ⟨w, hw⟩ := h.readable _ hsetting
        rw [Setting.fallback?, constant_eq_ok_iff.mpr hw] at hv
        obtain rfl := Option.some.inj hv
        exact .default hnone hsetting hw
    | none =>
      refine .unknown hnone fun setting hsetting hdefault => ?_
      obtain ⟨written, expression⟩ | expression := setting
      · cases hdefault
      · obtain ⟨w, hw⟩ := h.readable _ hsetting
        have hsome := List.findSome?_eq_none_iff.mp hfallback _ hsetting
        rw [Setting.fallback?, constant_eq_ok_iff.mpr hw] at hsome
        cases hsome

end Formula.CommandLine
