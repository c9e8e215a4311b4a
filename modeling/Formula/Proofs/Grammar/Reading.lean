import Formula.Proofs.Yard.Precedence

/-!
# Derivable formulas

`Derivable` is the grammar of formulas in infix notation: a literal or a variable, an operator
between two expressions, in front of one or behind one, an expression in parentheses, and a
function directly in front of its arguments in parentheses.

Whether a row of tokens is derivable can be read off it from the left to the right
(`derivable_iff`). The reader keeps in mind which of the open parentheses are those of functions
and whether an operand has to follow, and notes a flaw wherever a token does not fit: an operand
too many, one that is missing, a function without its parenthesis, or a token outside of the
groups that it belongs to. It goes on behind a flaw, so that flaws can be counted.
-/

namespace Formula

open Formula.Tree (Separated)

/-- The tokens are an expression. -/
inductive Derivable : List Token → Prop where
  | operand {t : Token} (ht : t.kind = .value ∨ t.kind = .symbol) : Derivable [t]
  | between {ls rs : List Token} {op : Token} {b : Binding} (hop : op.kind = .operator b)
      (hform : b.form = .between) (hl : Derivable ls) (hr : Derivable rs) :
      Derivable (ls ++ op :: rs)
  | before {rs : List Token} {op : Token} {b : Binding} (hop : op.kind = .operator b)
      (hform : b.form = .before) (hr : Derivable rs) : Derivable (op :: rs)
  | behind {ls : List Token} {op : Token} {b : Binding} (hop : op.kind = .operator b)
      (hform : b.form = .behind) (hl : Derivable ls) : Derivable (ls ++ [op])
  | group {o c : Token} {ts : List Token} (ho : o.isOpening = true)
      (hc : c.kind = .parenthesis .closing) (h : Derivable ts) : Derivable (o :: (ts ++ [c]))
  | call {g o c : Token} {arguments : List (List Token)} {ts : List Token}
      (hg : g.isFunction = true) (ho : o.isOpening = true) (hc : c.kind = .parenthesis .closing)
      (harguments : ∀ a ∈ arguments, Derivable a) (hts : Separated arguments ts) :
      Derivable (g :: o :: (ts ++ [c]))

/-- The form of an operator in the catalog: signs, negation and complement stand in front of
their operand, degrees behind it, and every operator of two operands between them. -/
theorem Catalog.form_of_provides {b : Binding} (h : Catalog.Provides (.operator b)) :
    (b.form = .before ∧ b.arity = .fixed 1 ∧
        b.operation ∈ [.plus, .minus, .logicalNot, .bitwiseNot]) ∨
      (b.form = .behind ∧ b.arity = .fixed 1 ∧ b.operation = .degrees) ∨
      (b.form = .between ∧ b.arity = .fixed 2) := by
  obtain ⟨e, he, previous, hk⟩ := h
  have hall : ∀ e ∈ entries, ∀ b ∈ e.role.operators,
      (b.form = .before ∧ b.arity = .fixed 1 ∧
          b.operation ∈ [.plus, .minus, .logicalNot, .bitwiseNot]) ∨
        (b.form = .behind ∧ b.arity = .fixed 1 ∧ b.operation = .degrees) ∨
        (b.form = .between ∧ b.arity = .fixed 2) := by
    decide
  exact hall e he b (mem_operators_of_token hk)

/-! ### Reading -/

/-- What may follow at a place of a formula. -/
inductive Stage where
  /-- An operand has to follow. -/
  | operand
  /-- An argument has to follow, or the closing parenthesis of a function without arguments. -/
  | arguments
  /-- The parenthesis of the function has to follow. -/
  | function
  /-- An operand has ended. -/
  | complete
  deriving DecidableEq

/-- What may be wrong in a formula. -/
inductive Flaw where
  /-- An operand begins directly behind another one, or a comma separates what are no
  arguments. -/
  | surplus
  /-- An operand is missing in front of an operator, a comma, a closing parenthesis or the
  end. -/
  | lacking
  /-- A function is not directly followed by an opening parenthesis. -/
  | uncalled
  /-- A closing parenthesis or a comma stands outside of all groups, or a group stays open. -/
  | ungrouped
  deriving DecidableEq

namespace Stage

/-- What is wrong where an operand begins. -/
def flawsOfStart : Stage → List Flaw
  | operand | arguments => []
  | function => [.uncalled]
  | complete => [.surplus]

/-- What is wrong where an operand should have ended. -/
def flawsOfEnd : Stage → List Flaw
  | operand | arguments => [.lacking]
  | function => [.uncalled]
  | complete => []

end Stage

/-- A place in a formula, as a reader knows it. -/
structure Reading where
  stage : Stage
  /-- For each open parenthesis, the innermost first, whether it is that of a function. -/
  calls : List Bool
  deriving DecidableEq

namespace Reading

/-- The place in front of a formula. -/
def start : Reading := ⟨.operand, []⟩

/-- The place behind a token. -/
def next (r : Reading) (t : Token) : Reading :=
  match t.kind with
  | .value | .symbol => { r with stage := .complete }
  | .function _ => { r with stage := .function }
  | .operator b => { r with stage := if b.form = .behind then .complete else .operand }
  | .parenthesis .opening =>
    if r.stage = .function then ⟨.arguments, true :: r.calls⟩ else ⟨.operand, false :: r.calls⟩
  | .parenthesis .closing => ⟨.complete, r.calls.tail⟩
  | .comma => { r with stage := .operand }

/-- What is wrong with a token at a place. -/
def flawsOf (r : Reading) (t : Token) : List Flaw :=
  match t.kind with
  | .value | .symbol | .function _ => r.stage.flawsOfStart
  | .operator b => if b.form = .before then r.stage.flawsOfStart else r.stage.flawsOfEnd
  | .parenthesis .opening => if r.stage = .function then [] else r.stage.flawsOfStart
  | .parenthesis .closing =>
    (if r.calls = [] then [.ungrouped] else []) ++
      if r.stage = .arguments then [] else r.stage.flawsOfEnd
  | .comma =>
    (match r.calls with
      | [] => [.ungrouped]
      | true :: _ => []
      | false :: _ => [.surplus]) ++ r.stage.flawsOfEnd

/-- What is wrong at a place if it is the end. -/
def flawsOfEnd (r : Reading) : List Flaw :=
  r.stage.flawsOfEnd ++ if r.calls = [] then [] else [.ungrouped]

/-- What is wrong with the tokens behind a place. -/
def flaws (r : Reading) : List Token → List Flaw
  | [] => r.flawsOfEnd
  | t :: ts => r.flawsOf t ++ (r.next t).flaws ts

end Reading

/-- What is wrong with the tokens of a formula. -/
def Token.flaws (ts : List Token) : List Flaw := Reading.start.flaws ts

variable {t g o c : Token} {ts us w : List Token} {r : Reading} {calls : List Bool}

/-! ### What is derivable has no flaws -/

namespace Reading

theorem flaws_cons (r : Reading) (t : Token) (ts : List Token) :
    r.flaws (t :: ts) = r.flawsOf t ++ (r.next t).flaws ts := by rw [flaws]

private theorem flaws_operand (ht : t.kind = .value ∨ t.kind = .symbol) (r : Reading) :
    r.flaws (t :: ts) = r.stage.flawsOfStart ++ flaws ⟨.complete, r.calls⟩ ts := by
  obtain ht | ht := ht <;> rw [flaws_cons, flawsOf, next, ht]

private theorem flaws_function (hg : g.isFunction = true) (r : Reading) :
    r.flaws (g :: ts) = r.stage.flawsOfStart ++ flaws ⟨.function, r.calls⟩ ts := by
  obtain ⟨b, hb⟩ := Token.isFunction_iff.mp hg
  rw [flaws_cons, flawsOf, next, hb]

private theorem flaws_opening (ho : o.isOpening = true) (hr : r.stage ≠ .function) :
    r.flaws (o :: ts) = r.stage.flawsOfStart ++ flaws ⟨.operand, false :: r.calls⟩ ts := by
  simp only [flaws_cons, flawsOf, next, Token.isOpening_iff.mp ho, if_neg hr]

/-- The parenthesis of a function. -/
theorem flaws_opening_function (ho : o.isOpening = true) (calls : List Bool) :
    flaws ⟨.function, calls⟩ (o :: ts) = flaws ⟨.arguments, true :: calls⟩ ts := by
  simp only [flaws_cons, flawsOf, next, Token.isOpening_iff.mp ho, if_pos, List.nil_append]

/-- A closing parenthesis behind an operand ends what it encloses as an operand. -/
private theorem flaws_closing (hc : c.kind = .parenthesis .closing) {call : Bool} :
    flaws ⟨.complete, call :: calls⟩ (c :: ts) = flaws ⟨.complete, calls⟩ ts := by
  simp [flaws_cons, flawsOf, next, hc, Stage.flawsOfEnd]

/-- A function may have no arguments. -/
theorem flaws_closing_arguments (hc : c.kind = .parenthesis .closing) {call : Bool} :
    flaws ⟨.arguments, call :: calls⟩ (c :: ts) = flaws ⟨.complete, calls⟩ ts := by
  simp [flaws_cons, flawsOf, next, hc]

/-- Behind an argument of a call a comma is no flaw, and an operand has to follow. -/
private theorem flaws_comma (hc : c.kind = .comma) :
    flaws ⟨.complete, true :: calls⟩ (c :: ts) = flaws ⟨.operand, true :: calls⟩ ts := by
  simp [flaws_cons, flawsOf, next, hc, Stage.flawsOfEnd]

/-- An operator in front of its operand stands where an operand may begin, and leaves one to follow.
-/
private theorem flaws_before {b : Binding} (hop : o.kind = .operator b) (hform : b.form = .before)
    (r : Reading) :
    r.flaws (o :: ts) = r.stage.flawsOfStart ++ flaws ⟨.operand, r.calls⟩ ts := by
  simp [flaws_cons, flawsOf, next, hop, hform]

/-- An operator between its operands stands where an operand has ended, and leaves one to follow. -/
private theorem flaws_between {b : Binding} (hop : o.kind = .operator b) (hform : b.form = .between)
    (r : Reading) :
    r.flaws (o :: ts) = r.stage.flawsOfEnd ++ flaws ⟨.operand, r.calls⟩ ts := by
  simp [flaws_cons, flawsOf, next, hop, hform]

/-- An operator behind its operand stands where an operand has ended, and ends one itself. -/
private theorem flaws_behind {b : Binding} (hop : o.kind = .operator b) (hform : b.form = .behind)
    (r : Reading) :
    r.flaws (o :: ts) = r.stage.flawsOfEnd ++ flaws ⟨.complete, r.calls⟩ ts := by
  simp [flaws_cons, flawsOf, next, hop, hform]

/-- Arguments end where the parenthesis of their function closes. -/
theorem flaws_separated {arguments : List (List Token)} (hts : Separated arguments ts)
    (hc : c.kind = .parenthesis .closing)
    (h : ∀ a ∈ arguments, ∀ {r : Reading}, r.stage.flawsOfStart = [] → ∀ us,
      r.flaws (a ++ us) = flaws ⟨.complete, r.calls⟩ us)
    {stage : Stage} (hstage : stage.flawsOfStart = []) (hnone : arguments = [] → stage = .arguments)
    (us : List Token) :
    flaws ⟨stage, true :: calls⟩ (ts ++ c :: us) = flaws ⟨.complete, calls⟩ us := by
  induction hts generalizing stage with
  | none => rw [hnone rfl, List.nil_append, flaws_closing_arguments hc]
  | one ts => rw [h ts (by simp) (by exact hstage), flaws_closing hc]
  | @cons ts' us' vs parts comma hcomma _ ih =>
    rw [List.append_assoc, h ts' (by simp) (by exact hstage), List.cons_append,
      flaws_comma hcomma]
    exact ih (fun a ha => h a (List.mem_cons_of_mem _ ha)) rfl nofun

end Reading

open Reading (start)

/-- An expression has no flaws where an operand has to follow, and the operand has ended behind
it. -/
theorem Derivable.flaws_append (h : Derivable ts) (hr : r.stage.flawsOfStart = [])
    (us : List Token) : r.flaws (ts ++ us) = Reading.flaws ⟨.complete, r.calls⟩ us := by
  induction h generalizing r us with
  | operand ht => rw [List.singleton_append, Reading.flaws_operand ht, hr, List.nil_append]
  | between hop hform _ _ ihl ihr =>
    rw [List.append_assoc, ihl hr, List.cons_append, Reading.flaws_between hop hform]
    exact ihr rfl us
  | before hop hform _ ih =>
    rw [List.cons_append, Reading.flaws_before hop hform, hr, List.nil_append]
    exact ih rfl us
  | behind hop hform _ ih =>
    rw [List.append_assoc, ih hr, List.singleton_append, Reading.flaws_behind hop hform]
    rfl
  | group ho hc _ ih =>
    have hfunction : r.stage ≠ .function := fun hs => by simp [hs, Stage.flawsOfStart] at hr
    rw [List.cons_append, Reading.flaws_opening ho hfunction, hr, List.nil_append,
      List.append_assoc, ih rfl, List.singleton_append, Reading.flaws_closing hc]
  | call hg ho hc _ hts ih =>
    rw [List.cons_append, Reading.flaws_function hg, hr, List.nil_append, List.cons_append,
      Reading.flaws_opening_function ho, List.append_assoc, List.singleton_append]
    exact Reading.flaws_separated hts hc (fun a ha => ih a ha) rfl (fun _ => rfl) us

/-! ### What has no flaws is derivable -/

/-- The tokens become an expression with any expression behind them. -/
def Opens (w : List Token) : Prop := ∀ us, Derivable us → Derivable (w ++ us)

/-- The tokens are arguments, at least one, with a comma between any two. -/
def AreArguments (ts : List Token) : Prop :=
  ∃ a as, (∀ b ∈ a :: as, Derivable b) ∧ Separated (a :: as) ts

/-- The tokens become arguments with any arguments behind them. -/
def Leads (w : List Token) : Prop := ∀ us, AreArguments us → AreArguments (w ++ us)

private theorem opens_nil : Opens [] := fun _ h => h

private theorem leads_nil : Leads [] := fun _ h => h

/-- Tokens that open an expression still do so with an operator that has its operand behind it. -/
theorem Opens.before {b : Binding} (h : Opens w) (hop : o.kind = .operator b)
    (hform : b.form = .before) : Opens (w ++ [o]) := fun us hus => by
  rw [List.append_assoc]
  exact h _ (.before hop hform hus)

/-- An expression and an operator behind it open another expression. -/
private theorem Derivable.opens {b : Binding} (h : Derivable w) (hop : o.kind = .operator b)
    (hform : b.form = .between) : Opens (w ++ [o]) := fun us hus => by
  rw [List.append_assoc]
  exact .between hop hform h hus

private theorem Derivable.areArguments (h : Derivable ts) : AreArguments ts :=
  ⟨ts, [], by simpa using h, .one ts⟩

/-- An argument and a comma behind others. -/
theorem Leads.comma (h : Leads w) (hts : Derivable ts) (hc : c.kind = .comma) :
    Leads (w ++ ts ++ [c]) := by
  rintro us ⟨a, as, has, hseparated⟩
  rw [List.append_assoc, List.append_assoc]
  refine h _ ⟨ts, a :: as, ?_, .cons hc hseparated⟩
  rintro b (_ | ⟨_, hb⟩)
  · exact hts
  · exact has b hb

/-- What may stand in front of an expression inside the open parentheses. -/
inductive Context : List Bool → List Token → Prop where
  | nil : Context [] []
  | group {calls : List Bool} {p w : List Token} {o : Token} (h : Context calls p)
      (hw : Opens w) (ho : o.isOpening = true) : Context (false :: calls) (p ++ w ++ [o])
  | call {calls : List Bool} {p w arguments : List Token} {g o : Token} (h : Context calls p)
      (hw : Opens w) (hg : g.isFunction = true) (ho : o.isOpening = true)
      (harguments : Leads arguments) : Context (true :: calls) (p ++ w ++ [g, o] ++ arguments)

/-- What has been read without a flaw when a place is reached. -/
inductive Reaches : Reading → List Token → Prop where
  | operand {calls : List Bool} {p w : List Token} (h : Context calls p) (hw : Opens w) :
      Reaches ⟨.operand, calls⟩ (p ++ w)
  | complete {calls : List Bool} {p w : List Token} (h : Context calls p) (hw : Derivable w) :
      Reaches ⟨.complete, calls⟩ (p ++ w)
  | function {calls : List Bool} {p w : List Token} {g : Token} (h : Context calls p)
      (hw : Opens w) (hg : g.isFunction = true) : Reaches ⟨.function, calls⟩ (p ++ w ++ [g])
  | arguments {calls : List Bool} {p w : List Token} {g o : Token} (h : Context calls p)
      (hw : Opens w) (hg : g.isFunction = true) (ho : o.isOpening = true) :
      Reaches ⟨.arguments, true :: calls⟩ (p ++ w ++ [g, o])

namespace Reaches

variable {done : List Token}

/-- Where an operand may begin, the tokens in front of it are waiting for one. -/
theorem exists_of_start (h : Reaches r done) (hr : r.stage.flawsOfStart = []) :
    ∃ p w, done = p ++ w ∧ Context r.calls p ∧ Opens w := by
  cases h with
  | operand h hw => exact ⟨_, _, rfl, h, hw⟩
  | complete | function => exact absurd hr (by simp [Stage.flawsOfStart])
  | arguments h hw hg ho =>
    exact ⟨_, [], (List.append_nil _).symm,
      by simpa using Context.call h hw hg ho leads_nil, opens_nil⟩

/-- Where an operand has ended, it is an expression. -/
theorem exists_of_end (h : Reaches r done) (hr : r.stage.flawsOfEnd = []) :
    ∃ p w, done = p ++ w ∧ Context r.calls p ∧ Derivable w := by
  cases h with
  | complete h hw => exact ⟨_, _, rfl, h, hw⟩
  | operand | function | arguments => exact absurd hr (by simp [Stage.flawsOfEnd])

/-- A closing parenthesis makes an expression of what stands behind the open one. -/
theorem closing {call : Bool} {p : List Token} (h : Context (call :: calls) p) (hw : Derivable w)
    (hc : c.kind = .parenthesis .closing) : Reaches ⟨.complete, calls⟩ (p ++ w ++ [c]) := by
  cases h with
  | @group _ p v o h hv ho =>
    have hgroup : p ++ v ++ [o] ++ w ++ [c] = p ++ (v ++ o :: (w ++ [c])) := by simp
    rw [hgroup]
    exact .complete h (hv _ (.group ho hc hw))
  | @call _ p v arguments g o h hv hg ho harguments =>
    obtain ⟨a, as, has, hseparated⟩ := harguments w hw.areArguments
    have hcall : p ++ v ++ [g, o] ++ arguments ++ w ++ [c] =
        p ++ (v ++ g :: o :: (arguments ++ w ++ [c])) := by simp
    rw [hcall]
    exact .complete h (hv _ (.call hg ho hc has hseparated))

theorem comma {p : List Token} (h : Context (true :: calls) p) (hw : Derivable w)
    (hc : c.kind = .comma) : Reaches ⟨.operand, true :: calls⟩ (p ++ w ++ [c]) := by
  cases h with
  | @call _ p v arguments g o h hv hg ho harguments =>
    have hcall : p ++ v ++ [g, o] ++ arguments ++ w ++ [c] =
        p ++ v ++ [g, o] ++ (arguments ++ w ++ [c]) ++ [] := by simp
    rw [hcall]
    exact .operand (.call h hv hg ho (harguments.comma hw hc)) opens_nil

/-- **A token without a flaw leads on.** -/
theorem next (h : Reaches r done) (hflaws : r.flawsOf t = []) :
    Reaches (r.next t) (done ++ [t]) := by
  cases hk : t.kind with
  | value | symbol =>
    simp only [Reading.flawsOf, hk] at hflaws
    obtain ⟨p, w, rfl, hp, hw⟩ := h.exists_of_start hflaws
    simp only [Reading.next, hk, List.append_assoc]
    exact .complete hp (hw _ (.operand (by simp [hk])))
  | function b =>
    simp only [Reading.flawsOf, hk] at hflaws
    obtain ⟨p, w, rfl, hp, hw⟩ := h.exists_of_start hflaws
    simp only [Reading.next, hk]
    exact .function hp hw (Token.isFunction_iff.mpr ⟨b, hk⟩)
  | operator b =>
    simp only [Reading.flawsOf, hk] at hflaws
    cases hform : b.form with
    | before =>
      obtain ⟨p, w, rfl, hp, hw⟩ := h.exists_of_start (by simpa [hform] using hflaws)
      simp only [Reading.next, hk, hform, List.append_assoc]
      exact .operand hp (hw.before hk hform)
    | between =>
      obtain ⟨p, w, rfl, hp, hw⟩ := h.exists_of_end (by simpa [hform] using hflaws)
      simp only [Reading.next, hk, hform, List.append_assoc]
      exact .operand hp (hw.opens hk hform)
    | behind =>
      obtain ⟨p, w, rfl, hp, hw⟩ := h.exists_of_end (by simpa [hform] using hflaws)
      simp only [Reading.next, hk, hform, List.append_assoc]
      exact .complete hp (.behind hk hform hw)
  | comma =>
    -- a comma is a flaw except in a call
    obtain ⟨stage, _ | ⟨_ | _, calls⟩⟩ := r
    · simp [Reading.flawsOf, hk] at hflaws
    · simp [Reading.flawsOf, hk] at hflaws
    · obtain ⟨p, w, rfl, hp, hw⟩ := h.exists_of_end (by simpa [Reading.flawsOf, hk] using hflaws)
      simpa [Reading.next, hk] using comma hp hw hk
  | parenthesis side =>
    cases side with
    | opening =>
      have ho : t.isOpening = true := Token.isOpening_iff.mpr hk
      by_cases hr : r.stage = .function
      · cases h with
        | @function calls p w g h hw hg =>
          have hcall : p ++ w ++ [g] ++ [t] = p ++ w ++ [g, t] := by simp
          simp only [Reading.next, hk, if_pos, hcall]
          exact .arguments h hw hg ho
        | operand | complete | arguments => cases hr
      · obtain ⟨p, w, rfl, hp, hw⟩ :=
          h.exists_of_start (by simpa [Reading.flawsOf, hk, hr] using hflaws)
        simp only [Reading.next, hk, if_neg hr]
        simpa using Reaches.operand (.group hp hw ho) opens_nil
    | closing =>
      obtain ⟨stage, _ | ⟨call, calls⟩⟩ := r
      · simp [Reading.flawsOf, hk] at hflaws
      · by_cases hstage : stage = .arguments
        · cases h with
          | @arguments _ p w g o h hw hg ho =>
            have hcall : p ++ w ++ [g, o] ++ [t] = p ++ (w ++ g :: o :: ([] ++ [t])) := by simp
            simp only [Reading.next, hk, List.tail_cons, hcall]
            exact .complete h (hw _ (.call hg ho hk (by simp) .none))
          | operand | complete | function => cases hstage
        · obtain ⟨p, w, rfl, hp, hw⟩ :=
            h.exists_of_end (by simpa [Reading.flawsOf, hk, hstage] using hflaws)
          simpa [Reading.next, hk] using closing hp hw hk

/-- Tokens without a flaw lead to the end of an expression. -/
theorem derivable (h : Reaches r done) (hflaws : r.flaws ts = []) : Derivable (done ++ ts) := by
  induction ts generalizing r done with
  | nil =>
    obtain ⟨stage, calls⟩ := r
    obtain ⟨hstage, hcalls⟩ : stage.flawsOfEnd = [] ∧ calls = [] := by
      simpa [Reading.flaws, Reading.flawsOfEnd] using hflaws
    obtain ⟨p, w, rfl, hp, hw⟩ := h.exists_of_end hstage
    subst hcalls
    cases hp
    simpa using hw
  | cons t ts ih =>
    rw [Reading.flaws_cons, List.append_eq_nil_iff] at hflaws
    have hts := ih (h.next hflaws.1) hflaws.2
    rwa [List.append_assoc, List.singleton_append] at hts

end Reaches

/-- **A row of tokens is derivable exactly if a reader finds no flaw in it.** -/
theorem derivable_iff : Derivable ts ↔ Token.flaws ts = [] := by
  constructor
  · intro h
    have hflaws := h.flaws_append (r := start) rfl []
    rwa [List.append_nil] at hflaws
  · intro h
    exact Reaches.derivable (.operand .nil opens_nil) h

/-! ### Functions without parentheses -/

namespace Reading

private theorem stage_next_eq_function_iff (r : Reading) (t : Token) :
    (r.next t).stage = .function ↔ t.isFunction = true := by
  cases hk : t.kind with
  | operator b => by_cases hform : b.form = .behind <;> simp [next, hk, hform, Token.isFunction]
  | parenthesis side =>
    cases side with
    | opening => by_cases hr : r.stage = .function <;> simp [next, hk, hr, Token.isFunction]
    | closing => simp [next, hk, Token.isFunction]
  | value | symbol | function b | comma => simp [next, hk, Token.isFunction]

/-- Where the parenthesis of a function has to follow, only that is no flaw. -/
theorem uncalled_mem_flawsOf_iff (r : Reading) (t : Token) :
    .uncalled ∈ r.flawsOf t ↔ r.stage = .function ∧ t.isOpening = false := by
  obtain ⟨stage, _ | ⟨_ | _, calls⟩⟩ := r
  all_goals
    cases hk : t.kind with
    | operator b =>
      cases stage <;> by_cases hform : b.form = .before <;>
        simp [flawsOf, hk, hform, Stage.flawsOfStart, Stage.flawsOfEnd, Token.isOpening]
    | parenthesis side =>
      cases stage <;> cases side <;>
        simp [flawsOf, hk, Stage.flawsOfStart, Stage.flawsOfEnd, Token.isOpening]
    | value | symbol | function b | comma =>
      cases stage <;> simp [flawsOf, hk, Stage.flawsOfStart, Stage.flawsOfEnd, Token.isOpening]

/-- A function without its parenthesis stands in front of a place or behind it. -/
theorem uncalled_mem_flaws_iff (r : Reading) (ts : List Token) :
    .uncalled ∈ r.flaws ts ↔ (r.stage = .function ∧ ∀ o ∈ ts.head?, o.isOpening = false) ∨
      ∃ front g rest, ts = front ++ g :: rest ∧ g.isFunction = true ∧
        ∀ o ∈ rest.head?, o.isOpening = false := by
  induction ts generalizing r with
  | nil =>
    obtain ⟨stage, calls⟩ := r
    cases stage <;> simp [flaws, flawsOfEnd, Stage.flawsOfEnd]
  | cons t ts ih =>
    rw [flaws_cons, List.mem_append, uncalled_mem_flawsOf_iff, ih, stage_next_eq_function_iff]
    refine or_congr (by simp) ?_
    constructor
    · rintro (⟨ht, hts⟩ | ⟨front, g, rest, rfl, hg, hrest⟩)
      · exact ⟨[], t, ts, rfl, ht, hts⟩
      · exact ⟨t :: front, g, rest, rfl, hg, hrest⟩
    · rintro ⟨_ | ⟨u, front⟩, g, rest, hts, hg, hrest⟩
      · obtain ⟨rfl, rfl⟩ := List.cons.inj hts
        exact .inl ⟨hg, hrest⟩
      · obtain ⟨rfl, rfl⟩ := List.cons.inj hts
        exact .inr ⟨front, g, rest, rfl, hg, hrest⟩

end Reading

/-- A function without its parenthesis is one that is not directly followed by an opening
parenthesis. -/
theorem uncalled_mem_flaws_start_iff : .uncalled ∈ Token.flaws ts ↔
    ∃ front g rest, ts = front ++ g :: rest ∧ g.isFunction = true ∧
      ∀ o ∈ rest.head?, o.isOpening = false := by
  rw [Token.flaws, Reading.uncalled_mem_flaws_iff]
  simp [start]

end Formula
