import Formula.Evaluation

/-!
# Computations that may fail

How a computation with a lookup comes to its outcome: one that gets to its end got past each of
its parts (`Evaluation.exists_of_bind`), and one that fails did so in one of them
(`Evaluation.error_cases_of_bind`). A fold over a list that fails has a first element at which
it does (`Evaluation.exists_of_foldlM_error`).
-/

namespace Formula.Evaluation

variable {σ ε α β : Type} {s s' : σ} {failure : Failure ε}

/-- A computation goes on with its result, or stops with its failure. -/
theorem bind_apply (m : Evaluation σ ε α) (k : α → Evaluation σ ε β) (s : σ) :
    (m >>= k) s = match m s with
      | (.ok a, s') => k a s'
      | (.error e, s') => (.error e, s') := by
  change (match m s with | (r, s') => ExceptT.bindCont k r s') = _
  obtain ⟨_ | a, s'⟩ := m s <;> rfl

theorem error_ne_ok {e : Failure ε} {a : α} {s s' : σ} :
    ¬((Except.error e, s) : Except (Failure ε) α × σ) = (.ok a, s') := by
  simp

/-- A computation that gets to its end got past each of its parts. -/
theorem exists_of_bind {m : Evaluation σ ε α} {k : α → Evaluation σ ε β} {s s' : σ} {b : β}
    (h : (m >>= k) s = (.ok b, s')) : ∃ a s₁, m s = (.ok a, s₁) ∧ k a s₁ = (.ok b, s') := by
  rw [bind_apply] at h
  obtain ⟨a, s₁, hm⟩ : ∃ a s₁, m s = (.ok a, s₁) := by
    cases hm : m s with
    | mk r s₁ =>
      cases r with
      | ok a => exact ⟨a, s₁, rfl⟩
      | error e =>
        rw [hm] at h
        exact absurd h error_ne_ok
  rw [hm] at h
  exact ⟨a, s₁, hm, h⟩

/-- A computation that fails does so in its first part or behind it. -/
theorem error_cases_of_bind {m : Evaluation σ ε α} {k : α → Evaluation σ ε β}
    (h : (m >>= k) s = (.error failure, s')) :
    m s = (.error failure, s') ∨ ∃ a s₁, m s = (.ok a, s₁) ∧ k a s₁ = (.error failure, s') := by
  rw [bind_apply] at h
  cases hm : m s with
  | mk r s₁ =>
    rw [hm] at h
    cases r with
    | ok a => exact .inr ⟨a, s₁, rfl, h⟩
    | error e =>
      obtain ⟨he, rfl⟩ := Prod.mk.inj h
      exact .inl (by rw [Except.error.inj he])

/-- A fold that fails gets to an element without failing and fails there. -/
theorem exists_of_foldlM_error {f : α → β → Evaluation σ ε α} {bs : List β} {a : α}
    (h : bs.foldlM f a s = (.error failure, s')) :
    ∃ before b after a₁ s₁, bs = before ++ b :: after ∧
      before.foldlM f a s = (.ok a₁, s₁) ∧ f a₁ b s₁ = (.error failure, s') := by
  induction bs generalizing a s with
  | nil => exact absurd h.symm error_ne_ok
  | cons b bs ih =>
    rw [List.foldlM_cons] at h
    obtain hb | ⟨a₁, s₁, hb, hrest⟩ := error_cases_of_bind h
    · exact ⟨[], b, bs, a, s, rfl, rfl, hb⟩
    · obtain ⟨before, c, after, a₂, s₂, rfl, hfold, hc⟩ := ih hrest
      refine ⟨b :: before, c, after, a₂, s₂, rfl, ?_, hc⟩
      rw [List.foldlM_cons, bind_apply, hb]
      exact hfold

/-! ### Results and questions -/

private theorem mapError_eq_ok_iff {ε' : Type} {r : Except ε α} {f : ε → ε'} {a : α} :
    r.mapError f = .ok a ↔ r = .ok a := by
  obtain e | a' := r
  · exact ⟨fun h => (nomatch (h : Except.error (f e) = .ok a)), fun h => nomatch h⟩
  · change Except.ok a' = Except.ok a ↔ _
    rw [Except.ok.injEq, Except.ok.injEq]

/-- A result is the value of an evaluation that leaves the caller's state alone. -/
private theorem ofResult_eq_ok_iff {r : Except Error α} {a : α} :
    (ofResult r : Evaluation σ ε α) s = (.ok a, s') ↔ r = .ok a ∧ s = s' := by
  obtain e | a' := r
  · exact ⟨fun h => absurd h error_ne_ok, fun h => absurd h.1.symm (by simp)⟩
  · change (Except.ok a', s) = (Except.ok a, s') ↔ _
    rw [Prod.mk.injEq, Except.ok.injEq, Except.ok.injEq]

/-- What is computed from values leaves the caller's state alone. -/
theorem ofRun_eq_ok_iff {r : Except RuntimeError α} {a : α} :
    (ofRun r : Evaluation σ ε α) s = (.ok a, s') ↔ r = .ok a ∧ s = s' := by
  rw [ofRun, ofResult_eq_ok_iff, mapError_eq_ok_iff]

/-- What is read from a text leaves the caller's state alone. -/
theorem ofParse_eq_ok_iff {r : Except ParseError α} {a : α} :
    (ofParse r : Evaluation σ ε α) s = (.ok a, s') ↔ r = .ok a ∧ s = s' := by
  rw [ofParse, ofResult_eq_ok_iff, mapError_eq_ok_iff]

private theorem ofResult_eq_error_iff {r : Except Error α} :
    (ofResult r : Evaluation σ ε α) s = (.error failure, s') ↔
      ∃ e, r = .error e ∧ failure = .fault e ∧ s = s' := by
  obtain e | a := r
  · change (Except.error (Failure.fault e), s) = (Except.error failure, s') ↔ _
    simp [eq_comm]
  · exact ⟨fun h => absurd h.symm error_ne_ok, fun ⟨e, he, _⟩ => absurd he (by simp)⟩

private theorem ofResult_mapError_eq_error_iff {ε' : Type} {r : Except ε' α} {f : ε' → Error} :
    (ofResult (r.mapError f) : Evaluation σ ε α) s = (.error failure, s') ↔
      ∃ e, r = .error e ∧ failure = .fault (f e) ∧ s = s' := by
  obtain e | a := r
  · change (ofResult (.error (f e)) : Evaluation σ ε α) s = _ ↔ _
    rw [ofResult_eq_error_iff]
    simp
  · change (ofResult (.ok a) : Evaluation σ ε α) s = _ ↔ _
    rw [ofResult_eq_error_iff]
    simp

theorem ofRun_eq_error_iff {r : Except RuntimeError α} :
    (ofRun r : Evaluation σ ε α) s = (.error failure, s') ↔
      ∃ e, r = .error e ∧ failure = .fault (.runtime e) ∧ s = s' :=
  ofResult_mapError_eq_error_iff

theorem ofParse_eq_error_iff {r : Except ParseError α} :
    (ofParse r : Evaluation σ ε α) s = (.error failure, s') ↔
      ∃ e, r = .error e ∧ failure = .fault (.parse e) ∧ s = s' :=
  ofResult_mapError_eq_error_iff

/-- The answer of the lookup is the value of a variable, and its state goes on. -/
theorem ask_eq_ok_iff {lookup : Lookup σ ε} {name : String} {v : Value} :
    ask lookup name s = (.ok v, s') ↔ lookup name s = (.ok v, s') := by
  rw [ask]
  obtain ⟨e | w, s₁⟩ := lookup name s
  · exact iff_of_false error_ne_ok fun h => absurd (congrArg Prod.fst h) (by simp)
  · change (Except.ok w, s₁) = (Except.ok v, s') ↔ _
    rw [Prod.mk.injEq, Prod.mk.injEq, Except.ok.injEq, Except.ok.injEq]

theorem ask_eq_error_iff {lookup : Lookup σ ε} {name : String} :
    ask lookup name s = (.error failure, s') ↔
      ∃ e, lookup name s = (.error e, s') ∧ failure = .lookup e := by
  rw [ask]
  obtain ⟨e | v, s₁⟩ := lookup name s
  · change (Except.error (Failure.lookup e), s₁) = (Except.error failure, s') ↔ _
    rw [Prod.mk.injEq, Except.error.injEq]
    constructor
    · rintro ⟨rfl, rfl⟩
      exact ⟨e, rfl, rfl⟩
    · rintro ⟨e', he, rfl⟩
      obtain ⟨he', rfl⟩ := Prod.mk.inj he
      rw [Except.error.inj he']
      exact ⟨rfl, rfl⟩
  · refine ⟨fun h => absurd h.symm error_ne_ok, fun ⟨e, he, _⟩ => ?_⟩
    exact absurd (congrArg Prod.fst he) (by simp)

end Formula.Evaluation
