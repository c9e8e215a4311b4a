import Formula.Operation.Apply

/-!
# The order in which arguments are checked

An operation first sees that the number of its arguments is one that it takes
(`Operation.range`), then that all of them are of a type that it takes (`Operation.operands`),
and only then what their values are. `Arguments.Validates` says so for the outcome of an
operation; for arguments whose number and types are right, `Arguments.Settled` lists what may
still come: a value, or an error about the values.

There is one lemma for each reader of operands. What is put together from readers that look at
the type alone is in this order (`Arguments.Checked.read`), which is how nearly all operations are
made. The logarithm to a base is not (`Operation.Overlooks`): it looks at the value of its first
operand before it looks at the type of the second.
-/

namespace Formula

/-- Which values an operation takes as operands. -/
inductive OperandSort where
  | any
  | number
  | integer
  | boolean

namespace OperandSort

/-- What is wrong with an operand of the type, if anything is. -/
def fault? : OperandSort → ValueType → Option TypeFault
  | any, _ => none
  | number, .boolean => some .booleanAsNumber
  | number, .integer | number, .float => none
  | integer, .integer => none
  | integer, found => some (.expectedInteger found)
  | boolean, .boolean => none
  | boolean, found => some (.expectedBoolean found)

/-- What is wrong with the first of the operands that is of a wrong type. -/
def firstFault? (sort : OperandSort) (vs : List Value) : Option TypeFault :=
  vs.findSome? fun v => sort.fault? v.type

end OperandSort

namespace Operation

/-- How many arguments an operation takes. -/
def range : Operation → ArgumentRange
  | plus | minus | log | round | floor | ceiling => ⟨1, some 2⟩
  | multiply | divide | modulo | remainder | power | bitwiseAnd | bitwiseOr | bitwiseXor
  | shiftLeft | shiftRight | logicalAnd | logicalOr | equal | notEqual | less | greater
  | lessEqual | greaterEqual | approxEqual => .exactly 2
  | bitwiseNot | logicalNot | abs | ln | exp | sin | cos | tan | asin | acos | atan | degrees =>
    .exactly 1
  | min | max => .atLeast 2

/-- Which values an operation takes as arguments. -/
def operands : Operation → OperandSort
  | plus | minus | multiply | divide | modulo | remainder | power | min | max | abs | ln | log
  | exp | sin | cos | tan | asin | acos | atan | degrees | round | floor | ceiling => .number
  | bitwiseAnd | bitwiseOr | bitwiseXor | bitwiseNot | shiftLeft | shiftRight => .integer
  | logicalAnd | logicalOr | logicalNot => .boolean
  | equal | notEqual | less | greater | lessEqual | greaterEqual | approxEqual => .any

/-- The operation overlooks that one of the arguments is of a wrong type. -/
inductive Overlooks : Operation → List Value → Prop where
  /-- The base of a logarithm is not looked at if the first operand is a number that has none. -/
  | base {v : Value} {x : Binary64} (b : Bool) (hx : v.number "log" = .ok x)
      (hle : x.atMost Elementary.zero = true) : Overlooks .log [v, .boolean b]

end Operation

namespace RuntimeError

/-- The name in an error, if it is about an operation or the symbol that was written for one. -/
def name? : RuntimeError → Option String
  | argumentCount name _ _ | type name _ | domain name _ | divisionByZero name
  | missingOperand name _ _ => some name
  | unbalancedExpression _ | unknownVariable _ => none

/-- The error is about the operands of the operation of that name. -/
inductive Blames (name : String) : RuntimeError → Prop where
  | argumentCount (found : Nat) (expected : ArgumentExpectation) :
      Blames name (.argumentCount name found expected)
  | type (fault : TypeFault) : Blames name (.type name fault)
  | domain (fault : DomainFault) : Blames name (.domain name fault)
  | divisionByZero : Blames name (.divisionByZero name)

variable {e : RuntimeError} {name : String}

theorem Blames.name?_eq (h : e.Blames name) : e.name? = some name := by
  cases h <;> rfl

/-- The error of an operation takes any other name. -/
theorem blames_renamed (h : e.Blames name) (symbol : String) :
    (e.renamed symbol).Blames symbol := by
  cases h with
  | argumentCount found expected => exact .argumentCount found expected
  | type fault => exact .type fault
  | domain fault => exact .domain fault
  | divisionByZero => exact .divisionByZero

end RuntimeError

namespace Arguments

variable {α β : Type} {name : String} {sort : OperandSort} {range : ArgumentRange}
  {vs args : List Value} {v w : Value}

/-- The outcome for operands of the right types: a value, or an error about their values. -/
inductive Settled (name : String) : Except RuntimeError α → Prop where
  | ok (a : α) : Settled name (.ok a)
  | domain (fault : DomainFault) : Settled name (.error (.domain name fault))
  | divisionByZero : Settled name (.error (.divisionByZero name))

namespace Settled

theorem bind {r : Except RuntimeError α} {k : α → Except RuntimeError β} (hr : Settled name r)
    (hk : ∀ a, Settled name (k a)) : Settled name (r >>= k) := by
  cases hr with
  | ok a => exact hk a
  | domain fault => exact .domain fault
  | divisionByZero => exact .divisionByZero

private theorem ite {c : Prop} [Decidable c] {r r' : Except RuntimeError α} (hr : Settled name r)
    (hr' : Settled name r') : Settled name (if c then r else r') := by
  split
  · exact hr
  · exact hr'

end Settled

/-- The outcome for operands that are checked for their types first. -/
def Checked (name : String) (sort : OperandSort) (vs : List Value) (r : Except RuntimeError α) :
    Prop :=
  match sort.firstFault? vs with
  | some fault => r = .error (.type name fault)
  | none => Settled name r

/-- The reader of an operand looks at its type and at nothing else. -/
def Reads (name : String) (sort : OperandSort) (v : Value) (r : Except RuntimeError α) : Prop :=
  match sort.fault? v.type with
  | some fault => r = .error (.type name fault)
  | none => ∃ a, r = .ok a

/-! ### Readers of operands -/

private theorem reads_number (name : String) (v : Value) :
    Reads name .number v (v.number name) := by
  cases v with
  | integer n => exact ⟨_, rfl⟩
  | float x => exact ⟨_, rfl⟩
  | boolean b => exact rfl

private theorem reads_integerOperand (name : String) (v : Value) :
    Reads name .integer v (v.integerOperand name) := by
  cases v with
  | integer n => exact ⟨n, rfl⟩
  | float x | boolean b => exact rfl

private theorem reads_booleanOperand (name : String) (v : Value) :
    Reads name .boolean v (v.booleanOperand name) := by
  cases v with
  | boolean b => exact ⟨b, rfl⟩
  | integer n | float x => exact rfl

namespace Checked

/-- An operand is read, and then the others are checked. -/
theorem read {r : Except RuntimeError α} {k : α → Except RuntimeError β}
    (hr : Reads name sort v r) (hk : ∀ a, r = .ok a → Checked name sort vs (k a)) :
    Checked name sort (v :: vs) (r >>= k) := by
  rw [Checked, OperandSort.firstFault?, List.findSome?_cons]
  rw [Reads] at hr
  cases hfault : sort.fault? v.type with
  | some fault =>
    rw [hfault] at hr
    rw [hr]
    rfl
  | none =>
    rw [hfault] at hr
    obtain ⟨a, rfl⟩ := hr
    exact hk a rfl

/-- What goes on behind the check with the operands that passed it. -/
theorem bind {r : Except RuntimeError α} {k : α → Except RuntimeError β}
    (hr : Checked name sort vs r) (hk : ∀ a, Settled name (k a)) :
    Checked name sort vs (r >>= k) := by
  rw [Checked] at hr ⊢
  cases hfault : sort.firstFault? vs with
  | some fault =>
    rw [hfault] at hr
    rw [hr]
    rfl
  | none =>
    rw [hfault] at hr
    exact hr.bind hk

/-- Two numbers are brought to one kind. -/
theorem numbers (name : String) (v w : Value) :
    Checked name .number [v, w] (Value.numbers name v w) := by
  cases v <;> cases w <;> first | exact .ok _ | exact rfl

end Checked

/-! ### Lists of arguments -/

/-- The outcome `r` for arguments that are checked for their number, then for their types. -/
structure Validates (name : String) (range : ArgumentRange) (sort : OperandSort)
    (args : List Value) (r : Except RuntimeError α) : Prop where
  count : range.admits args.length = false → r = .error (mismatch name range args.length)
  type : range.admits args.length = true → Checked name sort args r

namespace Validates

/-- With a wrong number of arguments there is nothing else to check. -/
private theorem of_not_admits {r : Except RuntimeError α}
    (hcount : range.admits args.length = false)
    (hr : r = .error (mismatch name range args.length)) :
    Validates name range sort args r :=
  ⟨fun _ => hr, fun h => absurd (h.symm.trans hcount) (by decide)⟩

theorem bind {r : Except RuntimeError α} {k : α → Except RuntimeError β}
    (hr : Validates name range sort args r) (hk : ∀ a, Settled name (k a)) :
    Validates name range sort args (r >>= k) := by
  refine ⟨fun hcount => ?_, fun hcount => (hr.type hcount).bind hk⟩
  rw [hr.count hcount]
  rfl

/-- Whatever goes wrong, the error has the name of the operation. -/
private theorem blames {r : Except RuntimeError α} (hr : Validates name range sort args r)
    {e : RuntimeError} (he : r = .error e) : e.Blames name := by
  subst he
  cases hcount : range.admits args.length with
  | false =>
    rw [Except.error.inj (hr.count hcount)]
    exact .argumentCount _ _
  | true =>
    have hchecked := hr.type hcount
    rw [Checked] at hchecked
    cases hfault : sort.firstFault? args with
    | some fault =>
      rw [hfault] at hchecked
      rw [Except.error.inj hchecked]
      exact .type fault
    | none =>
      rw [hfault] at hchecked
      cases hchecked with
      | domain fault => exact .domain fault
      | divisionByZero => exact .divisionByZero

/-- The operation takes one argument and checks its type. -/
theorem one {k : Value → Except RuntimeError α} (h : ∀ v, Checked name sort [v] (k v)) :
    Validates name (.exactly 1) sort args (one name args >>= k) := by
  match args with
  | [] => exact .of_not_admits rfl rfl
  | [v] => exact ⟨nofun, fun _ => h v⟩
  | _ :: _ :: vs => exact .of_not_admits (by simp [ArgumentRange.admits, ArgumentRange.exactly]) rfl

/-- The operation takes two arguments and checks their types from the left to the right. -/
private theorem two {k : Value × Value → Except RuntimeError α}
    (h : ∀ v w, Checked name sort [v, w] (k (v, w))) :
    Validates name (.exactly 2) sort args (two name args >>= k) := by
  match args with
  | [] | [_] => exact .of_not_admits rfl rfl
  | [v, w] => exact ⟨nofun, fun _ => h v w⟩
  | _ :: _ :: _ :: vs =>
    exact .of_not_admits (by simp [ArgumentRange.admits, ArgumentRange.exactly]) rfl

/-- The operation takes one argument or two, and checks in both cases. -/
private theorem oneOrTwo {k : Value × Option Value → Except RuntimeError α}
    (h : ∀ v, Checked name sort [v] (k (v, none)))
    (h' : ∀ v w, args = [v, w] → Checked name sort [v, w] (k (v, some w))) :
    Validates name ⟨1, some 2⟩ sort args (oneOrTwo name args >>= k) := by
  match args with
  | [] => exact .of_not_admits rfl rfl
  | [v] => exact ⟨nofun, fun _ => h v⟩
  | [v, w] => exact ⟨nofun, fun _ => h' v w rfl⟩
  | _ :: _ :: _ :: vs => exact .of_not_admits (by simp [ArgumentRange.admits]) rfl

/-- The operation takes two arguments at least. -/
private theorem twoOrMore {k : Value × List Value → Except RuntimeError α}
    (h : ∀ v w vs, Checked name sort (v :: w :: vs) (k (v, w :: vs))) :
    Validates name (.atLeast 2) sort args (twoOrMore name args >>= k) := by
  match args with
  | [] | [_] => exact .of_not_admits rfl rfl
  | v :: w :: vs =>
    refine ⟨fun hcount => ?_, fun _ => h v w vs⟩
    simp [ArgumentRange.admits, ArgumentRange.atLeast] at hcount

end Validates

/-! ### Families of operations -/

section Families

variable (name : String) (args : List Value)

private theorem validates_combine (exact : Int → Int → Int)
    (rounded : Binary64 → Binary64 → Binary64) :
    Validates name (.exactly 2) .number args (Arithmetic.combine name exact rounded args) :=
  .two fun v w => .bind (.numbers name v w) fun pair => by
    cases pair with
    | integers a b => exact .ok _
    | floats x y => exact .ok _

private theorem validates_combineDividing (exact : Int → Int → Int)
    (rounded : Binary64 → Binary64 → Binary64) :
    Validates name (.exactly 2) .number args
      (Arithmetic.combineDividing name exact rounded args) :=
  .two fun v w => .bind (.numbers name v w) fun pair => by
    cases pair with
    | integers a b => exact .ite .divisionByZero (.ok _)
    | floats x y => exact .ite .divisionByZero (.ok _)

private theorem validates_logic (f : Bool → Bool → Bool) :
    Validates name (.exactly 2) .boolean args (Logic.connective name f args) :=
  .two fun v w => .read (reads_booleanOperand name v) fun _ _ =>
    .read (reads_booleanOperand name w) fun _ _ => .ok _

private theorem validates_operands :
    Validates name (.exactly 2) .integer args (Bitwise.operands name args) :=
  .two fun v w => .read (reads_integerOperand name v) fun _ _ =>
    .read (reads_integerOperand name w) fun _ _ => .ok _

private theorem validates_connective (f : Int64 → Int64 → Int64) :
    Validates name (.exactly 2) .integer args (Bitwise.connective name f args) :=
  .bind (validates_operands name args) fun _ => .ok _

/-- An amount is refused for its value alone. -/
private theorem settled_shiftAmount (b : Int64) : Settled name (Bitwise.shiftAmount name b) := by
  rw [Bitwise.shiftAmount]
  cases Integer.toUInt32? b with
  | some places => exact .ok places
  | none => exact .domain (.shiftAmount b)

private theorem validates_shift (f : BitVec 64 → Nat → BitVec 64) :
    Validates name (.exactly 2) .integer args (Bitwise.shift name f args) :=
  .bind (validates_operands name args) fun ⟨a, b⟩ =>
    .bind (settled_shiftAmount name b) fun places => by
      cases Bitwise.shifted? f a places with
      | some n => exact .ok _
      | none => exact .domain (.shiftAmount b)

private theorem validates_total (f : Binary64 → Binary64) :
    Validates name (.exactly 1) .number args (Elementary.total name f args) :=
  .one fun v => .read (reads_number name v) fun _ _ => .ok _

private theorem validates_onUnitInterval (f : Binary64 → Binary64) :
    Validates name (.exactly 1) .number args (Elementary.onUnitInterval name f args) :=
  .one fun v => .read (reads_number name v) fun _ _ => .ite (.ok _) (.domain _)

private theorem validates_compare (o : Operation) {holds : Option Ordering → Bool}
    (ho : o.holds? = some holds) :
    Validates o.name (.exactly 2) .any args (Comparison.compare o args) :=
  .two fun v w => by
    rw [ho]
    exact .ok _

/-- A number has been found, and the arguments behind it are compared with it one by one. -/
theorem checked_picks (smallest : Bool) {found : Value} (hfound : found.isBoolean = false)
    (vs : List Value) :
    Checked name .number vs (vs.foldlM (fun found v => do
      return Extremum.pick smallest (← Value.numbers name found v)) found) := by
  induction vs generalizing found with
  | nil => exact .ok found
  | cons v vs ih =>
    rw [List.foldlM_cons]
    cases v with
    | boolean b =>
      cases found with
      | boolean c => exact nomatch hfound
      | integer n | float x => exact rfl
    | integer n | float x =>
      -- what is picked from two numbers is a number again
      cases found with
      | boolean c => exact nomatch hfound
      | integer m | float y => exact ih rfl

/-- The types of all arguments are checked, in their order, while they are compared. -/
theorem validates_extremum (o : Operation) :
    Validates o.name (.atLeast 2) .number args (Extremum.extremum o args) :=
  .twoOrMore fun v w vs => by
    cases v with
    | boolean b => cases w <;> exact rfl
    | integer n | float x => exact checked_picks o.name (o == .min) rfl (w :: vs)

private theorem validates_round (o : Operation) {rounding : Binary64 → Binary64}
    (ho : o.rounding? = some rounding) :
    Validates o.name ⟨1, some 2⟩ .number args (Rounding.round o args) := by
  refine .oneOrTwo (fun v => ?_) fun v scale _ => ?_
  · rw [ho]
    cases v with
    | integer n | float x => exact .ok _
    | boolean b => exact rfl
  · rw [ho]
    exact .read (reads_number _ v) fun _ _ => .read (reads_number _ scale) fun _ _ =>
      .ite (.domain _) (.ok _)

end Families

/-! ### Operations -/

section Operations

variable (args : List Value)

private theorem validates_plus : Validates "+" ⟨1, some 2⟩ .number args (Arithmetic.plus args) := by
  refine .oneOrTwo (fun v => ?_) fun v w _ => (validates_combine "+" [v, w] _ _).type rfl
  cases v with
  | integer n | float x => exact .ok _
  | boolean b => exact rfl

private theorem validates_minus :
    Validates "-" ⟨1, some 2⟩ .number args (Arithmetic.minus args) := by
  refine .oneOrTwo (fun v => ?_) fun v w _ => (validates_combine "-" [v, w] _ _).type rfl
  cases v with
  | integer n | float x => exact .ok _
  | boolean b => exact rfl

private theorem validates_abs :
    Validates "abs" (.exactly 1) .number args (Arithmetic.abs args) := by
  refine .one fun v => ?_
  cases v with
  | integer n | float x => exact .ok _
  | boolean b => exact rfl

private theorem settled_ofIntegers (base exponent : Int64) :
    Settled "pow" (Power.ofIntegers base exponent) := by
  refine .ite (.domain _) (.ite (.ok _) ?_)
  cases Power.integerPower? base exponent <;> exact .ok _

private theorem settled_ofFloats (base exponent : Binary64) :
    Settled "pow" (Power.ofFloats base exponent) :=
  .ite (.domain _) (.ite (.domain _) (.ok _))

private theorem validates_power : Validates "pow" (.exactly 2) .number args (Power.power args) := by
  refine .two fun base exponent => ?_
  cases base with
  | boolean b => cases exponent <;> exact rfl
  | integer m =>
    cases exponent with
    | boolean b => exact rfl
    | integer n => exact settled_ofIntegers m n
    | float y => exact settled_ofFloats _ y
  | float x =>
    cases exponent with
    | boolean b => exact rfl
    | integer n => exact .ite (.domain _) (.ok _)
    | float y => exact settled_ofFloats x y

private theorem checked_positive (v : Value) :
    Checked name .number [v] (Elementary.positive name v) :=
  .read (reads_number name v) fun _ _ => .ite (.domain _) (.ok _)

private theorem checked_base (v : Value) : Checked name .number [v] (Elementary.base name v) :=
  .read (reads_number name v) fun _ _ => .ite (.domain _) (.ok _)

private theorem validates_ln : Validates "ln" (.exactly 1) .number args (Elementary.ln args) :=
  .one fun v => .bind (checked_positive v) fun _ => .ok _

/-- The operand of a logarithm is looked at before anything that comes behind it. -/
theorem positive_bind (k : Binary64 → Except RuntimeError α) :
    Elementary.positive name v >>= k = v.number name >>= fun x =>
      if x.atMost Elementary.zero then .error (.domain name (.notPositive x)) else k x := by
  rw [Elementary.positive, bind_assoc]
  refine congrArg _ (funext fun x => ?_)
  split <;> rfl

/-- The logarithm validates its arguments unless it overlooks the type of the base. -/
private theorem validates_log {args : List Value} (h : ¬Operation.log.Overlooks args) :
    Validates "log" ⟨1, some 2⟩ .number args (Elementary.log args) := by
  refine .oneOrTwo (fun v => .bind (checked_positive v) fun _ => .ok _) fun v w hargs => ?_
  change Checked "log" .number [v, w] (Elementary.positive "log" v >>= _)
  rw [positive_bind]
  refine .read (reads_number "log" v) fun x hx => ?_
  by_cases hle : x.atMost Elementary.zero = true
  · rw [if_pos hle]
    cases w with
    | boolean b => exact absurd (hargs ▸ .base b hx hle) h
    | integer n | float y => exact .domain _
  · rw [if_neg hle]
    exact .bind (checked_base w) fun _ => .ok _

/-- A number without a logarithm is refused whatever the base is. -/
theorem log_eq_error {x : Binary64} (hx : v.number "log" = .ok x)
    (hle : x.atMost Elementary.zero = true) :
    Elementary.log [v, w] = .error (.domain "log" (.notPositive x)) := by
  change Elementary.positive "log" v >>= _ = _
  rw [positive_bind, hx]
  exact if_pos hle

end Operations

end Arguments

namespace Operation

variable {o : Operation} {args : List Value}

/-- An operation checks the number of its arguments, then their types, then their values. -/
theorem validates_apply (h : ¬o.Overlooks args) :
    Arguments.Validates o.name o.range o.operands args (o.apply args) := by
  cases o with
  | plus => exact Arguments.validates_plus args
  | minus => exact Arguments.validates_minus args
  | multiply => exact Arguments.validates_combine "*" args _ _
  | divide => exact Arguments.validates_combineDividing "/" args _ _
  | modulo => exact Arguments.validates_combineDividing "mod" args _ _
  | remainder => exact Arguments.validates_combineDividing "rem" args _ _
  | power => exact Arguments.validates_power args
  | bitwiseAnd => exact Arguments.validates_connective "&" args _
  | bitwiseOr => exact Arguments.validates_connective "|" args _
  | bitwiseXor => exact Arguments.validates_connective "^" args _
  | bitwiseNot => exact .one fun v => .read (Arguments.reads_integerOperand "~" v) fun _ _ => .ok _
  | shiftLeft => exact Arguments.validates_shift "<<" args _
  | shiftRight => exact Arguments.validates_shift ">>" args _
  | logicalAnd => exact Arguments.validates_logic "&&" args _
  | logicalOr => exact Arguments.validates_logic "||" args _
  | logicalNot => exact .one fun v => .read (Arguments.reads_booleanOperand "!" v) fun _ _ => .ok _
  | equal => exact Arguments.validates_compare args .equal rfl
  | notEqual => exact Arguments.validates_compare args .notEqual rfl
  | less => exact Arguments.validates_compare args .less rfl
  | greater => exact Arguments.validates_compare args .greater rfl
  | lessEqual => exact Arguments.validates_compare args .lessEqual rfl
  | greaterEqual => exact Arguments.validates_compare args .greaterEqual rfl
  | approxEqual => exact .two fun v w => .ok _
  | min => exact Arguments.validates_extremum args .min
  | max => exact Arguments.validates_extremum args .max
  | abs => exact Arguments.validates_abs args
  | ln => exact Arguments.validates_ln args
  | log => exact Arguments.validates_log h
  | exp => exact Arguments.validates_total "exp" args _
  | sin => exact Arguments.validates_total "sin" args _
  | cos => exact Arguments.validates_total "cos" args _
  | tan => exact Arguments.validates_total "tan" args _
  | asin => exact Arguments.validates_onUnitInterval "asin" args _
  | acos => exact Arguments.validates_onUnitInterval "acos" args _
  | atan => exact Arguments.validates_total "atan" args _
  | degrees => exact Arguments.validates_total "°" args _
  | round => exact Arguments.validates_round args .round rfl
  | floor => exact Arguments.validates_round args .floor rfl
  | ceiling => exact Arguments.validates_round args .ceiling rfl

/-- Where an argument of a wrong type is overlooked, the error is about the value of another. -/
theorem Overlooks.apply_eq (h : o.Overlooks args) :
    o.range.admits args.length = true ∧
      ∃ x, o.apply args = .error (.domain o.name (.notPositive x)) := by
  cases h with
  | @base v x b hx hle => exact ⟨rfl, x, Arguments.log_eq_error hx hle⟩

/-- An operation fails under its own name. -/
theorem blames_of_apply {e : RuntimeError} (h : o.apply args = .error e) : e.Blames o.name := by
  by_cases hoverlooks : o.Overlooks args
  · obtain ⟨-, x, hx⟩ := hoverlooks.apply_eq
    obtain rfl := Except.error.inj (hx.symm.trans h)
    exact .domain _
  · exact (validates_apply hoverlooks).blames h

/-- **The order of the checks.** An operation refuses a wrong number of arguments whatever they
are, then arguments of a wrong type whatever the values of the others are, unless it overlooks
them, and fails for its other arguments only because of their values. -/
theorem apply_checks (o : Operation) (args : List Value) :
    (o.range.admits args.length = false →
      o.apply args = .error (.argumentCount o.name args.length (.range o.range))) ∧
    (o.range.admits args.length = true →
      (∀ fault, o.operands.firstFault? args = some fault → ¬o.Overlooks args →
        o.apply args = .error (.type o.name fault)) ∧
      (o.operands.firstFault? args = none →
        (∃ v, o.apply args = .ok v) ∨ (∃ fault, o.apply args = .error (.domain o.name fault)) ∨
          o.apply args = .error (.divisionByZero o.name))) ∧
    (o.Overlooks args → ∃ x, o.apply args = .error (.domain o.name (.notPositive x))) ∧
    ∀ e, o.apply args = .error e → e.Blames o.name := by
  refine ⟨fun hcount => ?_, fun hcount => ⟨fun fault hfault hseen => ?_, fun hfault => ?_⟩,
    fun hoverlooks => hoverlooks.apply_eq.2, fun e => blames_of_apply⟩
  · have hseen : ¬o.Overlooks args := fun hoverlooks =>
      absurd (hoverlooks.apply_eq.1.symm.trans hcount) (by decide)
    exact (validates_apply hseen).count hcount
  · have hchecked := (validates_apply hseen).type hcount
    rwa [Arguments.Checked, hfault] at hchecked
  · by_cases hoverlooks : o.Overlooks args
    · obtain ⟨-, x, hx⟩ := hoverlooks.apply_eq
      exact .inr (.inl ⟨_, hx⟩)
    · have hchecked := (validates_apply hoverlooks).type hcount
      rw [Arguments.Checked, hfault] at hchecked
      generalize o.apply args = r at hchecked ⊢
      cases hchecked with
      | ok v => exact .inl ⟨v, rfl⟩
      | domain fault => exact .inr (.inl ⟨fault, rfl⟩)
      | divisionByZero => exact .inr (.inr rfl)

/-- The logarithm of minus one fails for its value, though its base is a truth value. -/
theorem apply_log_overlooks_base :
    log.range.admits 2 = true ∧
      log.operands.firstFault? [.integer (-1), .boolean true] = some .booleanAsNumber ∧
      log.apply [.integer (-1), .boolean true] =
        .error (.domain "log" (.notPositive (.ofInt64 (-1)))) :=
  ⟨rfl, rfl, Arguments.log_eq_error rfl (by decide +kernel)⟩

end Operation

end Formula
