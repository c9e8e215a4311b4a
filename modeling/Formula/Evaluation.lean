import Formula.Error

/-!
# Evaluation with a lookup of variables

The values of variables come from the caller, who may keep a state between one variable and
the next, count the questions, or fail with errors of its own. An evaluation is therefore a
function on the caller's state that may fail; the state outlives a failure.

A failure is a fault of the formula, or the error of the caller's lookup as it was given.
-/

namespace Formula

/-- Why an evaluation fails, with `ε` the errors of the caller's lookup. -/
inductive Failure (ε : Type) where
  /-- The formula itself is at fault. -/
  | fault (e : Error)
  /-- The lookup of a variable failed. -/
  | lookup (e : ε)
  deriving DecidableEq

/-- A computation on a caller's state `σ` that may fail. -/
abbrev Evaluation (σ ε : Type) := ExceptT (Failure ε) (StateM σ)

/-- The value of a variable, or an error, and the caller's state behind it. -/
abbrev Lookup (σ ε : Type) := String → σ → Except ε Value × σ

/-- The lookup of a formula without variables: it knows no name. -/
def Lookup.noVariables {σ : Type} : Lookup σ Error :=
  fun name s => (.error (.runtime (.unknownVariable name)), s)

namespace Evaluation

variable {σ ε α : Type}

/-- The value of a variable. -/
def ask (lookup : Lookup σ ε) (name : String) : Evaluation σ ε Value := fun s =>
  match lookup name s with
  | (.ok v, s) => (.ok v, s)
  | (.error e, s) => (.error (.lookup e), s)

/-- A result, or a fault of the formula. -/
def ofResult (r : Except Error α) : Evaluation σ ε α := fun s =>
  match r with
  | .ok a => (.ok a, s)
  | .error e => (.error (.fault e), s)

/-- What is read from a text, or the fault in it. -/
def ofParse (r : Except ParseError α) : Evaluation σ ε α := ofResult (r.mapError .parse)

/-- What is computed from values, or the fault in them. -/
def ofRun (r : Except RuntimeError α) : Evaluation σ ε α := ofResult (r.mapError .runtime)

end Evaluation

end Formula
