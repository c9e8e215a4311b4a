import Formula.Proofs.CommandLine.Input
import Formula.Proofs.CommandLine.Settings

/-!
# Expressions from the standard input and from the command line

It makes no difference whether expressions are typed into the standard input or given as words of
the command line, but for the line that asks for them (`run_modes`). Either way each of them is
evaluated by itself, with the variables as they are by the settings, and has one line: its value
on the standard output or the message of its failure on the standard error (`Outcome.Shows`).
-/

namespace Formula.CommandLine

open Text (OneLine trim)

/-- The line of a result on the standard output, if it has one there. -/
def shown : Except (Failure Error) Value → Option String
  | .ok v => some v.text
  | .error _ => none

/-- The line of a result on the standard error, if it has one there. -/
def complaint : Except (Failure Error) Value → Option String
  | .ok _ => none
  | .error failure => some failure.error.message

/-- The outcome of the results of expressions. -/
structure Outcome.Shows (results : List (Except (Failure Error) Value)) (o : Outcome) : Prop where
  output : o.output = String.join ((results.filterMap shown).map (· ++ "\n"))
  errors : o.errors = String.join ((results.filterMap complaint).map (· ++ "\n"))
  oneLine : ∀ text ∈ results.filterMap shown ++ results.filterMap complaint, OneLine text
  code : o.code ≠ 0 ↔ ∃ r ∈ results, ∃ failure, r = .error failure

/-! ### Reports -/

variable {results : List (Except (Failure Error) Value)} {o : Options} {expression : String}
  {failure : Failure Error}

private theorem output_ofResult (r : Except (Failure Error) Value) :
    (Report.ofResult r).output = ((shown r).map (· ++ "\n")).getD "" := by
  obtain (e | e) | v := r <;> rfl

private theorem errors_ofResult (r : Except (Failure Error) Value) :
    (Report.ofResult r).errors = ((complaint r).map (· ++ "\n")).getD "" := by
  obtain (e | e) | v := r <;> rfl

private theorem isFailure_ofResult (r : Except (Failure Error) Value) :
    (Report.ofResult r).isFailure = true ↔ ∃ failure, r = .error failure := by
  obtain (e | e) | v := r <;> simp [Report.ofResult, Report.isFailure]

/-- Texts that are not there add nothing to others. -/
theorem join_getD {α : Type} (f : α → Option String) (xs : List α) :
    String.join (xs.map fun x => ((f x).map (· ++ "\n")).getD "") =
      String.join ((xs.filterMap f).map (· ++ "\n")) := by
  induction xs with
  | nil => rfl
  | cons x xs ih =>
    rw [List.map_cons, String.join_cons, ih]
    cases hx : f x with
    | none =>
      rw [List.filterMap_cons_none hx, Option.map_none, Option.getD_none, String.empty_append]
    | some text =>
      rw [List.filterMap_cons_some hx, List.map_cons, String.join_cons, Option.map_some,
        Option.getD_some]

/-- The outcome of reports is that of the results that they report. -/
theorem Outcome.shows_ofReports (hline : ∀ text ∈ results.filterMap shown ++
    results.filterMap complaint, OneLine text) :
    (Outcome.ofReports (results.map Report.ofResult)).Shows results where
  output := by
    have hmap : (results.map Report.ofResult).map Report.output =
        results.map fun r => ((shown r).map (· ++ "\n")).getD "" := by
      rw [List.map_map]
      exact List.map_congr_left fun r _ => output_ofResult r
    rw [← join_getD, ← hmap]
    rfl
  errors := by
    have hmap : (results.map Report.ofResult).map Report.errors =
        results.map fun r => ((complaint r).map (· ++ "\n")).getD "" := by
      rw [List.map_map]
      exact List.map_congr_left fun r _ => errors_ofResult r
    rw [← join_getD, ← hmap]
    rfl
  oneLine := hline
  code := by
    have hany : (results.map Report.ofResult).any Report.isFailure = true ↔
        ∃ r ∈ results, ∃ failure, r = .error failure := by
      simp only [List.any_map, List.any_eq_true, Function.comp_apply, isFailure_ofResult]
    rw [ofReports, ← hany]
    split_ifs with h <;> simp [h]

/-! ### The variables -/

/-- Only a variable that nothing is known of has no value. -/
theorem Options.lookup_error {name : String} {e : Error} {s s' : Unit}
    (h : o.lookup name s = (.error e, s')) : e = .runtime (.unknownVariable name) := by
  rw [Options.lookup] at h
  split at h
  · cases h
  · exact (Except.error.inj (congrArg Prod.fst h)).symm

/-- Values and messages are on one line. -/
theorem Options.oneLine_of_mem (o : Options) (lines : List String) :
    ∀ text ∈ (lines.map fun line => (evaluate o.lookup line ()).1).filterMap shown ++
      (lines.map fun line => (evaluate o.lookup line ()).1).filterMap complaint, OneLine text := by
  have hmem : ∀ f : Except (Failure Error) Value → Option String,
      (∀ line text, f (evaluate o.lookup line ()).1 = some text → OneLine text) →
      ∀ text ∈ (lines.map fun line => (evaluate o.lookup line ()).1).filterMap f,
        OneLine text := by
    intro f hf text htext
    obtain ⟨r, hr, hsome⟩ := List.mem_filterMap.mp htext
    obtain ⟨line, -, rfl⟩ := List.mem_map.mp hr
    exact hf line text hsome
  refine List.forall_mem_append.mpr ⟨hmem _ fun line text h => ?_, hmem _ fun line text h => ?_⟩
  · cases hr : (evaluate o.lookup line ()).1 with
    | error failure =>
      rw [hr] at h
      cases h
    | ok v =>
      rw [hr] at h
      exact Option.some.inj h ▸ v.oneLine_text
  · cases hr : (evaluate o.lookup line ()).1 with
    | error failure =>
      rw [hr] at h
      have hevaluate : evaluate o.lookup line () = (.error failure, ()) := Prod.ext hr rfl
      exact Option.some.inj h ▸ oneLine_of_evaluate (fun _ _ _ _ => lookup_error) hevaluate
    | ok v =>
      rw [hr] at h
      cases h

/-- **The two modes of the program agree.** Settings that can be read make up a lookup: a variable
is what the last definition of its name says, or else what all others are, or else unknown. Lines
that are not blank and that are typed into the standard input in front of a blank one, or of its
end, have the outcome that they have as words behind `--`, but for the line that asks for them.
Whatever else is typed does not matter. -/
theorem run_modes {settings : List Setting} {written : List (List String)} {lines : List String}
    {input : List UInt8} (hsettings : Acceptable settings)
    (hwritten : List.Forall₂ Setting.Written settings written)
    (hlines : ∀ line ∈ lines, OneLine line ∧ trim line.toList ≠ []) (hinput : Typed lines input) :
    ∃ (lookup : Lookup Unit Error) (o : Outcome),
      (∀ name, Resolves settings name (lookup name ()).1) ∧
      o.Shows (lines.map fun line => (evaluate lookup line ()).1) ∧
      run written.flatten input = { o with output := asLine prompt ++ o.output } ∧
      (lines ≠ [] → ∀ ignored, run (written.flatten ++ "--" :: lines) ignored = o) := by
  have hreports : lines.map (Options.ofSettings settings).report =
      (lines.map fun line => (evaluate (Options.ofSettings settings).lookup line ()).1).map
        Report.ofResult := by
    rw [List.map_map]
    rfl
  refine ⟨(Options.ofSettings settings).lookup,
    Outcome.ofReports (lines.map (Options.ofSettings settings).report),
    resolves_lookup hsettings, ?_, ?_, fun hne ignored => ?_⟩
  · rw [hreports]
    exact Outcome.shows_ofReports ((Options.ofSettings settings).oneLine_of_mem lines)
  · rw [run, Request.ofArguments_settings hsettings hwritten]
    have hnone : (Options.ofSettings settings).expressions = [] := rfl
    change (Options.ofSettings settings).run input = _
    rw [Options.run, if_pos hnone, Options.reportLines_of_typed _ hlines hinput]
  · rw [run, Request.ofArguments_lines hsettings hwritten hne]
    exact if_neg hne

/-- In the last line in front of the blank one the division fails, and `z` is not evaluated. -/
theorem run_sum_and_quotient :
    let settings : List Setting := [.define "X" "1 + 1", .default "7"]
    let written := [["-d", "X=1 + 1"], ["--default=7"]]
    let input := bytes "x + y" ++ newline :: (bytes "1 / 0" ++ newline ::
      (bytes " " ++ newline :: bytes "z"))
    Acceptable settings ∧ List.Forall₂ Setting.Written settings written ∧
      Typed ["x + y", "1 / 0"] input ∧
      run (written.flatten ++ "--" :: ["x + y", "1 / 0"]) [] =
        ⟨1, "9\n", "Division by zero in '/'.\n"⟩ ∧
      run written.flatten input =
        ⟨1, asLine prompt ++ "9\n", "Division by zero in '/'.\n"⟩ := by
  intro settings written input
  have hone : Denotes "1 + 1" (.integer 2) := by
    rw [Denotes]
    decide +kernel
  have hseven : Denotes "7" (.integer 7) := by
    rw [Denotes]
    decide +kernel
  have hsettings : Acceptable settings := by
    refine ⟨List.forall_mem_cons.mpr ⟨⟨by decide, by decide +kernel, _, hone⟩,
      List.forall_mem_singleton.mpr ⟨_, hseven⟩⟩, by decide⟩
  have hwritten : List.Forall₂ Setting.Written settings written :=
    .cons (.letter (by decide)) (.cons (.longEquals (.default "7")) .nil)
  have hinput : Typed ["x + y", "1 / 0"] input :=
    .line _ (.line _ (.blank (by decide) (by decide) _))
  have hlines : ∀ line ∈ ["x + y", "1 / 0"], OneLine line ∧ trim line.toList ≠ [] := by decide
  obtain ⟨lookup, o, -, -, hinput', hwords⟩ := run_modes hsettings hwritten hlines hinput
  have ho := hwords (by decide) []
  have houtcome : o = ⟨1, "9\n", "Division by zero in '/'.\n"⟩ := by
    obtain ⟨code, output, errors⟩ := o
    rw [Outcome.mk.injEq]
    refine ⟨(congrArg Outcome.code ho).symm.trans ?_, (congrArg Outcome.output ho).symm.trans ?_,
      (congrArg Outcome.errors ho).symm.trans ?_⟩ <;> decide +kernel
  exact ⟨hsettings, hwritten, hinput, ho.trans houtcome, by rw [hinput', houtcome]⟩

end Formula.CommandLine
