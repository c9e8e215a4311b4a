import Formula.Proofs.Operation.Validation

/-!
# Arithmetic stays with numbers

The operations on numbers are those that take numbers as operands (`Operation.operands`). None of
them has a truth value for its outcome, whatever its arguments are
(`Operation.isNumber_of_apply`): what they answer with is a floating-point number, or an exact
integer that has given way to one where it does not fit (`Value.isNumber_exactOr`). On numbers
none of them fails for the type of an argument (`Operation.ne_type_of_apply`).
-/

namespace Formula

variable {α : Type} {args : List Value}

namespace Value

/-- The value is an integer or a floating-point number. -/
inductive IsNumber : Value → Prop where
  | integer (n : Int64) : IsNumber (integer n)
  | float (x : Binary64) : IsNumber (float x)

theorem isNumber_iff {v : Value} : v.IsNumber ↔ ∀ b, v ≠ boolean b := by
  cases v with
  | integer n => exact iff_of_true (.integer n) nofun
  | float x => exact iff_of_true (.float x) nofun
  | boolean b => exact iff_of_false nofun fun h => h b rfl

/-- An exact integer gives way to a number. -/
theorem isNumber_exactOr (x : Binary64) (z : Int) : (exactOr x z).IsNumber := by
  rw [exactOr]
  cases Integer.ofInt? z with
  | some n => exact .integer n
  | none => exact .float x

/-- An integral result is a number, whether it becomes an integer or not. -/
private theorem isNumber_integral (x : Binary64) : (integral x).IsNumber := by
  rw [integral]
  cases x.toInt64? with
  | some n => exact .integer n
  | none => exact .float x

end Value

/-! ### Outcomes -/

/-- If there is a value, it is a number. -/
def GivesNumber (r : Except RuntimeError Value) : Prop := ∀ v, r = .ok v → v.IsNumber

namespace GivesNumber

theorem ok {v : Value} (h : v.IsNumber) : GivesNumber (.ok v) := by
  intro w hw
  obtain rfl := Except.ok.inj hw
  exact h

theorem error (e : RuntimeError) : GivesNumber (.error e) := nofun

/-- Only the last step of a computation has to give numbers. -/
theorem bind {r : Except RuntimeError α} {k : α → Except RuntimeError Value}
    (hk : ∀ a, r = .ok a → GivesNumber (k a)) : GivesNumber (r >>= k) := by
  cases r with
  | error e => exact nofun
  | ok a => exact hk a rfl

private theorem ite {c : Prop} [Decidable c] {r r' : Except RuntimeError Value} (hr : GivesNumber r)
    (hr' : GivesNumber r') : GivesNumber (if c then r else r') := by
  split
  · exact hr
  · exact hr'

/-! ### Families of operations -/

variable (name : String)

private theorem combine (exact : Int → Int → Int) (rounded : Binary64 → Binary64 → Binary64) :
    GivesNumber (Arithmetic.combine name exact rounded args) :=
  .bind fun _ _ => .bind fun pair _ => by
    cases pair with
    | integers a b => exact .ok (Value.isNumber_exactOr _ _)
    | floats x y => exact .ok (.float _)

private theorem combineDividing (exact : Int → Int → Int)
    (rounded : Binary64 → Binary64 → Binary64) :
    GivesNumber (Arithmetic.combineDividing name exact rounded args) :=
  .bind fun _ _ => .bind fun pair _ => by
    cases pair with
    | integers a b => exact .ite (.error _) (.ok (Value.isNumber_exactOr _ _))
    | floats x y => exact .ite (.error _) (.ok (.float _))

private theorem total (f : Binary64 → Binary64) : GivesNumber (Elementary.total name f args) :=
  .bind fun _ _ => .bind fun _ _ => .ok (.float _)

private theorem onUnitInterval (f : Binary64 → Binary64) :
    GivesNumber (Elementary.onUnitInterval name f args) :=
  .bind fun _ _ => .bind fun _ _ => .ite (.ok (.float _)) (.error _)

/-- What is picked from two numbers is a number. -/
theorem pick (smallest : Bool) (found v : Value) :
    GivesNumber (do return Extremum.pick smallest (← Value.numbers name found v)) :=
  .bind fun pair _ => by
    cases pair with
    | integers a b => exact .ok (.integer _)
    | floats x y => exact .ok (.float _)

/-- What is found among numbers is one of them. -/
theorem picks (smallest : Bool) {found : Value} (hfound : found.IsNumber) (vs : List Value) :
    GivesNumber (vs.foldlM (fun found v => do
      return Extremum.pick smallest (← Value.numbers name found v)) found) := by
  induction vs generalizing found with
  | nil => exact .ok hfound
  | cons v vs ih =>
    rw [List.foldlM_cons]
    exact .bind fun w hw => ih (pick name smallest found v w hw)

theorem extremum (o : Operation) : GivesNumber (Extremum.extremum o args) := by
  refine .bind fun ⟨first, others⟩ h => ?_
  -- the first of the arguments is picked from with a second one
  obtain ⟨v, vs, rfl⟩ : ∃ v vs, others = v :: vs := by
    obtain _ | ⟨a, _ | ⟨b, vs⟩⟩ := args
    · cases h
    · cases h
    · obtain ⟨-, rfl⟩ := Prod.mk.inj (Except.ok.inj h)
      exact ⟨b, vs, rfl⟩
  change GivesNumber ((v :: vs).foldlM _ first)
  rw [List.foldlM_cons]
  exact .bind fun w hw => picks o.name (o == .min) (pick o.name (o == .min) first v w hw) vs

theorem round (o : Operation) : GivesNumber (Rounding.round o args) := by
  refine .bind fun ⟨v, scale⟩ _ => ?_
  cases o.rounding? with
  | none => exact .error _
  | some rounding =>
    cases scale with
    | none =>
      cases v with
      | integer n => exact .ok (.integer n)
      | float x => exact .ok (Value.isNumber_integral _)
      | boolean b => exact .error _
    | some scale =>
      refine .bind fun x _ => .bind fun s _ => .ite (.error _) (.ok ?_)
      split
      · exact Value.isNumber_integral _
      · exact .float _

/-! ### Operations -/

private theorem plus : GivesNumber (Arithmetic.plus args) := by
  refine .bind fun ⟨v, w⟩ _ => ?_
  cases w with
  | some w => exact combine "+" _ _
  | none =>
    cases v with
    | integer n => exact .ok (.integer n)
    | float x => exact .ok (.float x)
    | boolean b => exact .error _

private theorem minus : GivesNumber (Arithmetic.minus args) := by
  refine .bind fun ⟨v, w⟩ _ => ?_
  cases w with
  | some w => exact combine "-" _ _
  | none =>
    cases v with
    | integer n => exact .ok (Value.isNumber_exactOr _ _)
    | float x => exact .ok (.float _)
    | boolean b => exact .error _

private theorem abs : GivesNumber (Arithmetic.abs args) := by
  refine .bind fun v _ => ?_
  cases v with
  | integer n => exact .ok (Value.isNumber_exactOr _ _)
  | float x => exact .ok (.float _)
  | boolean b => exact .error _

private theorem ofIntegers (base exponent : Int64) :
    GivesNumber (Power.ofIntegers base exponent) := by
  refine .ite (.error _) (.ite (.ok (.float _)) ?_)
  cases Power.integerPower? base exponent with
  | some n => exact .ok (.integer n)
  | none => exact .ok (.float _)

private theorem ofFloats (base exponent : Binary64) : GivesNumber (Power.ofFloats base exponent) :=
  .ite (.error _) (.ite (.error _) (.ok (.float _)))

private theorem power : GivesNumber (Power.power args) := by
  refine .bind fun ⟨base, exponent⟩ _ => ?_
  cases base with
  | boolean b => exact .error _
  | integer m =>
    cases exponent with
    | boolean b => exact .error _
    | integer n => exact ofIntegers m n
    | float y => exact ofFloats _ y
  | float x =>
    cases exponent with
    | boolean b => exact .error _
    | integer n => exact .ite (.error _) (.ok (.float _))
    | float y => exact ofFloats x y

private theorem ln : GivesNumber (Elementary.ln args) :=
  .bind fun _ _ => .bind fun _ _ => .ok (.float _)

private theorem log : GivesNumber (Elementary.log args) := by
  refine .bind fun ⟨v, b⟩ _ => ?_
  cases b with
  | none => exact .bind fun _ _ => .ok (.float _)
  | some b => exact .bind fun _ _ => .bind fun _ _ => .ok (.float _)

end GivesNumber

namespace Operation

variable {o : Operation} {v : Value}

/-- An operation on numbers has a number for its value, whatever its arguments are. -/
theorem isNumber_of_apply (ho : o.operands = .number) (h : o.apply args = .ok v) :
    v.IsNumber := by
  suffices hgives : GivesNumber (o.apply args) from hgives v h
  cases o with
  | plus => exact .plus
  | minus => exact .minus
  | multiply => exact .combine "*" _ _
  | divide => exact .combineDividing "/" _ _
  | modulo => exact .combineDividing "mod" _ _
  | remainder => exact .combineDividing "rem" _ _
  | power => exact .power
  | min => exact .extremum .min
  | max => exact .extremum .max
  | abs => exact .abs
  | ln => exact .ln
  | log => exact .log
  | exp => exact .total "exp" _
  | sin => exact .total "sin" _
  | cos => exact .total "cos" _
  | tan => exact .total "tan" _
  | asin => exact .onUnitInterval "asin" _
  | acos => exact .onUnitInterval "acos" _
  | atan => exact .total "atan" _
  | degrees => exact .total "°" _
  | round => exact .round .round
  | floor => exact .round .floor
  | ceiling => exact .round .ceiling
  | bitwiseAnd | bitwiseOr | bitwiseXor | bitwiseNot | shiftLeft | shiftRight | logicalAnd
  | logicalOr | logicalNot | equal | notEqual | less | greater | lessEqual | greaterEqual
  | approxEqual => cases ho

/-- There is nothing wrong with the types of numbers. -/
theorem firstFault?_of_numbers (hargs : ∀ v ∈ args, v.IsNumber) :
    OperandSort.number.firstFault? args = none := by
  rw [OperandSort.firstFault?, List.findSome?_eq_none_iff]
  intro v hv
  cases hargs v hv <;> rfl

/-- On numbers an operation on numbers does not fail for their types. -/
theorem ne_type_of_apply (ho : o.operands = .number) (hargs : ∀ v ∈ args, v.IsNumber)
    (name : String) (fault : TypeFault) : o.apply args ≠ .error (.type name fault) := by
  have hseen : ¬o.Overlooks args := by
    rintro ⟨b, -, -⟩
    exact nomatch hargs (.boolean b) (by simp)
  have hvalid := validates_apply hseen
  cases hcount : o.range.admits args.length with
  | false =>
    rw [hvalid.count hcount]
    intro h
    cases h
  | true =>
    have hsettled := hvalid.type hcount
    rw [Arguments.Checked, ho, firstFault?_of_numbers hargs] at hsettled
    intro h
    rw [h] at hsettled
    cases hsettled

end Operation

end Formula
