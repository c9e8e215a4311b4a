import Formula.Proofs.Binary64.Monotone
import Formula.Proofs.Operation.Validation

/-!
# The smallest and the largest of several numbers

The arguments are taken two at a time, and what is found is an integer until the first
floating-point number is met. `Extremum.Found` says what has been found in a list, whichever of
the two it is: an integer that leads all the others, or a floating-point number that leads all the
widened arguments that are numbers. One more argument keeps this (`Extremum.Found.concat`), because
the integer that leads all the others still leads them when they are widened
(`Extremum.Found.extreme`).

What is found in a list depends on its members alone, and unless both zeros are among them only one
value can be found (`Extremum.Found.eq`). So the order of the arguments does not matter.
-/

namespace Formula

namespace Extremum

open Binary64 (nan zero)

variable {smallest : Bool} {x y z : Binary64} {xs : List Binary64} {p q : Int}
  {args args' vs : List Value} {v w : Value}

/-! ### Two numbers -/

/-- The number is at most the other one if the smallest is asked for, and at least the other one if
the largest is. -/
def Leads (smallest : Bool) (x y : Binary64) : Prop :=
  (if smallest then x.atMost y else y.atMost x) = true

/-- The one of two numbers that is asked for. -/
def choose (smallest : Bool) (x y : Binary64) : Binary64 :=
  if smallest then x.smaller y else x.larger y

private theorem leads_iff_of_place? (hx : x.place? = some p) (hy : y.place? = some q) :
    Leads smallest x y ↔ if smallest then p ≤ q else q ≤ p := by
  cases smallest with
  | true => exact Binary64.atMost_iff_of_place? hx hy
  | false => exact Binary64.atMost_iff_of_place? hy hx

/-- The place of the chosen number is the smaller or the larger one of the two places. -/
private theorem place?_choose (hx : x.place? = some p) (hy : y.place? = some q) :
    (choose smallest x y).place? = some (if smallest then min p q else max p q) := by
  cases smallest with
  | true => exact Binary64.place?_smaller hx hy
  | false => exact Binary64.place?_larger hx hy

private theorem choose_nan_left (smallest : Bool) (y : Binary64) : choose smallest nan y = y := by
  cases smallest <;> rfl

private theorem choose_nan_right (smallest : Bool) (x : Binary64) : choose smallest x nan = x := by
  cases smallest <;> cases x <;> rfl

private theorem choose_eq_or (smallest : Bool) (x y : Binary64) :
    choose smallest x y = x ∨ choose smallest x y = y := by
  unfold choose Binary64.smaller Binary64.larger
  split_ifs <;> simp

/-- What is not a number leads nothing. -/
theorem not_leads_nan : ¬Leads smallest nan y := by
  cases smallest <;> cases y <;> exact Bool.false_ne_true

/-! ### Several numbers -/

/-- The number leads all numbers of a list, and is one of them. Without a number in the list it is
not one either. -/
structure Extreme (smallest : Bool) (xs : List Binary64) (x : Binary64) : Prop where
  mem : x ∈ xs
  leads : ∀ y ∈ xs, y ≠ nan → Leads smallest x y
  forall_eq_nan : x = nan → ∀ y ∈ xs, y = nan

/-- A member that leads all numbers of a list is extreme, because what is no number leads nothing.
-/
private theorem Extreme.of_leads (hmem : x ∈ xs) (hleads : ∀ y ∈ xs, y ≠ nan → Leads smallest x y) :
    Extreme smallest xs x where
  mem := hmem
  leads := hleads
  forall_eq_nan hx y hy := by
    by_contra hnumber
    exact not_leads_nan (hx ▸ hleads y hy hnumber)

private theorem extreme_singleton (smallest : Bool) (x : Binary64) : Extreme smallest [x] x := by
  refine .of_leads List.mem_cons_self fun y hy hnumber => ?_
  obtain rfl := List.mem_singleton.mp hy
  obtain ⟨p, hp⟩ := Binary64.exists_place? hnumber
  rw [leads_iff_of_place? hp hp]
  split <;> exact le_refl p

/-- One more number is compared with the one that leads the others. -/
theorem Extreme.concat (h : Extreme smallest xs x) (y : Binary64) :
    Extreme smallest (xs ++ [y]) (choose smallest x y) := by
  refine .of_leads ?_ fun z hz hnumber => ?_
  · rw [List.mem_append, List.mem_singleton]
    exact (choose_eq_or smallest x y).imp_left fun hx => by
      rw [hx]
      exact h.mem
  · rw [List.mem_append, List.mem_singleton] at hz
    by_cases hx : x = nan
    · -- only the new number can be one
      obtain rfl : z = y := hz.resolve_left fun hz => hnumber (h.forall_eq_nan hx z hz)
      rw [hx, choose_nan_left]
      exact (extreme_singleton smallest z).leads z List.mem_cons_self hnumber
    by_cases hy : y = nan
    · have hz : z ∈ xs := hz.resolve_right fun hzy => hnumber (hzy.trans hy)
      rw [hy, choose_nan_right]
      exact h.leads z hz hnumber
    obtain ⟨p, hp⟩ := Binary64.exists_place? hx
    obtain ⟨q, hq⟩ := Binary64.exists_place? hy
    obtain ⟨r, hr⟩ := Binary64.exists_place? hnumber
    rw [leads_iff_of_place? (place?_choose hp hq) hr]
    obtain hz | rfl := hz
    · have hleads := (leads_iff_of_place? hp hr).mp (h.leads z hz hnumber)
      cases smallest <;> simp at hleads ⊢ <;> omega
    · obtain rfl : q = r := Option.some.inj (hq.symm.trans hr)
      cases smallest <;> simp

/-! ### What is found in a list of values -/

/-- The integer is at most the other one if the smallest is asked for, and at least the other one
if the largest is. -/
def IntegerLeads (smallest : Bool) (n m : Int64) : Prop :=
  if smallest then n.toInt ≤ m.toInt else m.toInt ≤ n.toInt

/-- What is found among numbers: the integer that leads the others if all of them are integers, and
otherwise the floating-point number that leads all of them widened. -/
inductive Found (smallest : Bool) (args : List Value) : Value → Prop where
  | integer (n : Int64) (hall : ∀ v ∈ args, v.isInteger = true) (hmem : .integer n ∈ args)
      (hleads : ∀ m, .integer m ∈ args → IntegerLeads smallest n m) :
      Found smallest args (.integer n)
  | float (x : Binary64) (hall : ∀ v ∈ args, v.isBoolean = false)
      (hfloat : ∃ v ∈ args, v.isFloat = true)
      (hextreme : Extreme smallest (args.map (·.toFloat)) x) : Found smallest args (.float x)

/-- Leading integers still lead when they are widened. -/
theorem leads_ofInt64 {n m : Int64} (h : IntegerLeads smallest n m) :
    Leads smallest (.ofInt64 n) (.ofInt64 m) := by
  cases smallest with
  | true => exact Binary64.atMost_ofInt64 h
  | false => exact Binary64.atMost_ofInt64 h

private theorem exists_integer (h : v.isInteger = true) : ∃ n, v = .integer n := by
  cases v with
  | integer n => exact ⟨n, rfl⟩
  | float x | boolean b => exact absurd h Bool.false_ne_true

namespace Found

/-- Nothing is found where a boolean is among the arguments. -/
private theorem isBoolean_eq_false (h : Found smallest args v) :
    ∀ v ∈ args, v.isBoolean = false := by
  cases h with
  | float x hall => exact hall
  | integer n hall =>
    intro v hv
    obtain ⟨m, rfl⟩ := exists_integer (hall v hv)
    rfl

/-- What is found leads all of the numbers when they are widened. -/
theorem extreme (h : Found smallest args v) :
    Extreme smallest (args.map (·.toFloat)) v.toFloat := by
  cases h with
  | float x _ _ hextreme => exact hextreme
  | integer n hall hmem hleads =>
    refine .of_leads (List.mem_map_of_mem hmem) (List.forall_mem_map.mpr fun w hw _ => ?_)
    obtain ⟨m, rfl⟩ := exists_integer (hall w hw)
    exact leads_ofInt64 (hleads m hw)

private theorem singleton (smallest : Bool) (hv : v.isBoolean = false) : Found smallest [v] v := by
  cases v with
  | boolean b => exact absurd hv.symm Bool.false_ne_true
  | integer n =>
    refine .integer n (fun w hw => ?_) List.mem_cons_self fun m hm => ?_
    · rw [List.mem_singleton.mp hw]
      rfl
    · rw [Value.integer.inj (List.mem_singleton.mp hm), IntegerLeads]
      split <;> exact le_refl _
  | float x =>
    refine .float x (fun w hw => ?_) ⟨_, List.mem_cons_self, rfl⟩ (extreme_singleton smallest x)
    rw [List.mem_singleton.mp hw]
    rfl

/-- What is found depends on the members of the list alone. -/
theorem of_perm (h : Found smallest args v) (hperm : args.Perm args') :
    Found smallest args' v := by
  cases h with
  | integer n hall hmem hleads =>
    exact .integer n (fun w hw => hall w (hperm.mem_iff.mpr hw)) (hperm.mem_iff.mp hmem)
      fun m hm => hleads m (hperm.mem_iff.mpr hm)
  | float x hall hfloat hextreme =>
    obtain ⟨w, hw, hwfloat⟩ := hfloat
    have hmap := hperm.map (·.toFloat)
    exact .float x (fun w hw => hall w (hperm.mem_iff.mpr hw)) ⟨w, hperm.mem_iff.mp hw, hwfloat⟩
      (.of_leads (hmap.mem_iff.mp hextreme.mem)
        fun y hy => hextreme.leads y (hmap.mem_iff.mpr hy))

end Found

/-! ### One argument more -/

private theorem numbers_of_isFloat (name : String) (hv : v.isBoolean = false)
    (hw : w.isBoolean = false) (h : v.isFloat = true ∨ w.isFloat = true) :
    Value.numbers name v w = .ok (.floats v.toFloat w.toFloat) := by
  cases v with
  | boolean b => exact absurd hv.symm Bool.false_ne_true
  | integer n =>
    cases w with
    | boolean b => exact absurd hw.symm Bool.false_ne_true
    | integer m => exact absurd (show false = true ∨ false = true from h) (by decide)
    | float y => rfl
  | float x =>
    cases w with
    | boolean b => exact absurd hw.symm Bool.false_ne_true
    | integer m => rfl
    | float y => rfl

/-- Of two integers one is picked that leads both. -/
private theorem exists_pick_integers (smallest : Bool) (n m : Int64) :
    ∃ k, pick smallest (.integers n m) = .integer k ∧ (k = n ∨ k = m) ∧
      IntegerLeads smallest k n ∧ IntegerLeads smallest k m := by
  cases smallest with
  | true =>
    by_cases h : m < n
    · have hlt := Int64.lt_iff_toInt_lt.mp h
      exact ⟨m, congrArg _ (if_pos h), .inr rfl, hlt.le, le_refl m.toInt⟩
    · have hle := not_lt.mp (mt Int64.lt_iff_toInt_lt.mpr h)
      exact ⟨n, congrArg _ (if_neg h), .inl rfl, le_refl n.toInt, hle⟩
  | false =>
    by_cases h : n < m
    · have hlt := Int64.lt_iff_toInt_lt.mp h
      exact ⟨m, congrArg _ (if_pos h), .inr rfl, hlt.le, le_refl m.toInt⟩
    · have hle := not_lt.mp (mt Int64.lt_iff_toInt_lt.mpr h)
      exact ⟨n, congrArg _ (if_neg h), .inl rfl, le_refl n.toInt, hle⟩

private theorem IntegerLeads.trans {k n m : Int64} (h : IntegerLeads smallest k n)
    (h' : IntegerLeads smallest n m) : IntegerLeads smallest k m := by
  cases smallest with
  | true => exact Int.le_trans h h'
  | false => exact Int.le_trans h' h

/-- **One more argument.** -/
theorem Found.concat (name : String) (h : Found smallest args v) (hw : w.isBoolean = false) :
    ∃ pair, Value.numbers name v w = .ok pair ∧
      Found smallest (args ++ [w]) (pick smallest pair) := by
  have hall : ∀ u ∈ args ++ [w], u.isBoolean = false := by
    rw [List.forall_mem_append]
    exact ⟨h.isBoolean_eq_false, List.forall_mem_singleton.mpr hw⟩
  have hextreme : Extreme smallest ((args ++ [w]).map (·.toFloat))
      (choose smallest v.toFloat w.toFloat) := by
    rw [List.map_append]
    exact h.extreme.concat w.toFloat
  -- what has been found is an integer as long as all arguments are, and a float from then on
  cases h with
  | float x _ hfloat =>
    obtain ⟨u, hu, hufloat⟩ := hfloat
    exact ⟨_, numbers_of_isFloat name rfl hw (.inl rfl),
      .float _ hall ⟨u, List.mem_append_left _ hu, hufloat⟩ hextreme⟩
  | integer n hintegers hmem hleads =>
    cases w with
    | boolean b => exact absurd hw.symm Bool.false_ne_true
    | float y =>
      exact ⟨_, rfl, .float _ hall ⟨.float y, List.mem_append_right _ List.mem_cons_self, rfl⟩
        hextreme⟩
    | integer m =>
      obtain ⟨k, hpick, hk, hkn, hkm⟩ := exists_pick_integers smallest n m
      refine ⟨.integers n m, rfl, ?_⟩
      rw [hpick]
      refine .integer k ?_ ?_ fun j hj => ?_
      · rw [List.forall_mem_append]
        exact ⟨hintegers, List.forall_mem_singleton.mpr rfl⟩
      · rw [List.mem_append, List.mem_singleton]
        obtain rfl | rfl := hk
        · exact .inl hmem
        · exact .inr rfl
      · obtain hj | hj := List.mem_append.mp hj
        · exact hkn.trans (hleads j hj)
        · rw [Value.integer.inj (List.mem_singleton.mp hj)]
          exact hkm

/-- All arguments. -/
theorem Found.exists_foldlM (name : String) (h : Found smallest args v)
    (hvs : ∀ w ∈ vs, w.isBoolean = false) :
    ∃ r, vs.foldlM (fun found w => do
      return pick smallest (← Value.numbers name found w)) v = .ok r ∧
        Found smallest (args ++ vs) r := by
  induction vs generalizing args v with
  | nil => exact ⟨v, rfl, by rwa [List.append_nil]⟩
  | cons w vs ih =>
    obtain ⟨hw, hvs⟩ := List.forall_mem_cons.mp hvs
    obtain ⟨pair, hpair, hfound⟩ := h.concat name hw
    obtain ⟨r, hr, hall⟩ := ih hfound hvs
    refine ⟨r, ?_, by rwa [List.append_assoc, List.singleton_append] at hall⟩
    rw [List.foldlM_cons, hpair]
    exact hr

/-- Something is found among two or more arguments without a boolean. -/
private theorem exists_extremum_eq (o : Operation) (hargs : 2 ≤ args.length)
    (h : ∀ v ∈ args, v.isBoolean = false) :
    ∃ v, extremum o args = .ok v ∧ Found (o == .min) args v := by
  obtain ⟨v, w, vs, rfl⟩ : ∃ v w vs, args = v :: w :: vs := by
    match args with
    | v :: w :: vs => exact ⟨v, w, vs, rfl⟩
  obtain ⟨hv, hvs⟩ := List.forall_mem_cons.mp h
  exact (Found.singleton (o == .min) hv).exists_foldlM o.name hvs

/-- Where a number is wanted, a truth value is at fault wherever it stands. -/
theorem firstFault?_number (h : ∃ v ∈ args, v.isBoolean = true) :
    OperandSort.number.firstFault? args = some .booleanAsNumber := by
  obtain ⟨v, hv, hboolean⟩ := h
  cases hfault : OperandSort.number.firstFault? args with
  | none =>
    have hnone := List.findSome?_eq_none_iff.mp hfault v hv
    cases v with
    | boolean b => exact absurd hnone (Option.some_ne_none _)
    | integer n | float x => exact absurd hboolean Bool.false_ne_true
  | some fault =>
    obtain ⟨w, -, hw⟩ := List.exists_of_findSome?_eq_some hfault
    cases w with
    | boolean b => exact hw.symm
    | integer n | float x => exact absurd hw.symm (Option.some_ne_none fault)

private theorem extremum_eq_error (o : Operation) (hargs : 2 ≤ args.length)
    (h : ∃ v ∈ args, v.isBoolean = true) :
    extremum o args = .error (.type o.name .booleanAsNumber) := by
  have hadmits : (ArgumentRange.atLeast 2).admits args.length = true := by
    simp [ArgumentRange.admits, ArgumentRange.atLeast, hargs]
  have hchecked := (Arguments.validates_extremum args o).type hadmits
  rwa [Arguments.Checked, firstFault?_number h] at hchecked

/-! ### The order of the arguments -/

/-- There is one extreme number, the two zeros apart. -/
theorem Extreme.eq (h : Extreme smallest xs x) (h' : Extreme smallest xs y)
    (hzeros : ¬(zero false ∈ xs ∧ zero true ∈ xs)) : x = y := by
  by_cases hx : x = nan
  · rw [hx, h.forall_eq_nan hx y h'.mem]
  by_cases hy : y = nan
  · rw [hy, h'.forall_eq_nan hy x h.mem]
  obtain ⟨p, hp⟩ := Binary64.exists_place? hx
  obtain ⟨q, hq⟩ := Binary64.exists_place? hy
  have hxy := (leads_iff_of_place? hp hq).mp (h.leads y h'.mem hy)
  have hyx := (leads_iff_of_place? hq hp).mp (h'.leads x h.mem hx)
  obtain rfl : p = q := by cases smallest <;> simp at hxy hyx <;> omega
  obtain heq | ⟨rfl, rfl⟩ | ⟨rfl, rfl⟩ := Binary64.eq_or_zeros_of_place? hp hq
  · exact heq
  · exact absurd ⟨h.mem, h'.mem⟩ hzeros
  · exact absurd ⟨h'.mem, h.mem⟩ hzeros

/-- There is one extreme value, the two zeros apart. -/
theorem Found.eq (h : Found smallest args v) (h' : Found smallest args w)
    (hzeros : ¬(zero false ∈ args.map (·.toFloat) ∧ zero true ∈ args.map (·.toFloat))) :
    v = w := by
  cases h with
  | integer n hall hmem hleads =>
    cases h' with
    | integer m _ hmem' hleads' =>
      have hnm := hleads m hmem'
      have hmn := hleads' n hmem
      rw [← Int64.toInt_inj.mp (show n.toInt = m.toInt by
        cases smallest <;> simp [IntegerLeads] at hnm hmn <;> omega)]
    | float x _ hfloat =>
      obtain ⟨u, hu, hufloat⟩ := hfloat
      obtain ⟨m, rfl⟩ := exists_integer (hall u hu)
      exact absurd hufloat Bool.false_ne_true
  | float x _ hfloat hx =>
    cases h' with
    | integer n hall =>
      obtain ⟨u, hu, hufloat⟩ := hfloat
      obtain ⟨m, rfl⟩ := exists_integer (hall u hu)
      exact absurd hufloat Bool.false_ne_true
    | float y _ _ hy => rw [hx.eq hy hzeros]

/-- The arguments may be taken in any order, unless both zeros are among them. -/
theorem extremum_perm (o : Operation) (hargs : 2 ≤ args.length) (hperm : args.Perm args')
    (hzeros : ¬(zero false ∈ args.map (·.toFloat) ∧ zero true ∈ args.map (·.toFloat))) :
    extremum o args = extremum o args' := by
  have hargs' : 2 ≤ args'.length := hperm.length_eq ▸ hargs
  by_cases h : ∃ v ∈ args, v.isBoolean = true
  · obtain ⟨v, hv, hboolean⟩ := h
    rw [extremum_eq_error o hargs ⟨v, hv, hboolean⟩,
      extremum_eq_error o hargs' ⟨v, hperm.mem_iff.mp hv, hboolean⟩]
  · have hnumbers : ∀ v ∈ args, v.isBoolean = false := fun v hv =>
      Bool.eq_false_iff.mpr fun hboolean => h ⟨v, hv, hboolean⟩
    obtain ⟨v, hv, hfound⟩ := exists_extremum_eq o hargs hnumbers
    obtain ⟨w, hw, hfound'⟩ :=
      exists_extremum_eq o hargs' fun v hv => hnumbers v (hperm.mem_iff.mpr hv)
    rw [hv, hw, hfound.eq (hfound'.of_perm hperm.symm) hzeros]

end Extremum

/-- **The smallest and the largest of several numbers**, in whatever order they are given. -/
theorem Operation.apply_extremum {o : Operation} (ho : o = .min ∨ o = .max) {args : List Value}
    (hargs : 2 ≤ args.length)
    (hzeros : ¬(.zero false ∈ args.map (·.toFloat) ∧ .zero true ∈ args.map (·.toFloat))) :
    ((∃ v ∈ args, v.isBoolean = true) → o.apply args = .error (.type o.name .booleanAsNumber)) ∧
      ((∀ v ∈ args, v.isBoolean = false) →
        ∃ v, o.apply args = .ok v ∧ Extremum.Found (o == .min) args v) ∧
      ∀ args', args.Perm args' → o.apply args = o.apply args' := by
  have happly : o.apply = Extremum.extremum o := by
    obtain rfl | rfl := ho <;> rfl
  rw [happly]
  exact ⟨Extremum.extremum_eq_error o hargs, Extremum.exists_extremum_eq o hargs,
    fun args' hperm => Extremum.extremum_perm o hargs hperm hzeros⟩

/-- What is not a number gives way to the others wherever it stands, and the integer is widened. -/
theorem Operation.apply_min_nan_half :
    let half := Value.float (.ofDyadic false 1 (-1))
    let args := [.float .nan, .integer 1, half]
    2 ≤ args.length ∧
      ¬(.zero false ∈ args.map (·.toFloat) ∧ .zero true ∈ args.map (·.toFloat)) ∧
      Operation.min.apply args = .ok half ∧
      Operation.min.apply [.integer 1, half, .float .nan] = .ok half := by
  intro half args
  have hzeros : ¬(.zero false ∈ args.map (·.toFloat) ∧ .zero true ∈ args.map (·.toFloat)) := by
    decide +kernel
  have happly : Operation.min.apply args = .ok half := by decide +kernel
  have hperm : args.Perm [.integer 1, half, .float .nan] := @List.perm_append_comm _ [_] _
  have hsame := (Operation.apply_extremum (.inl rfl) (by decide) hzeros).2.2 _ hperm
  exact ⟨by decide, hzeros, happly, hsame ▸ happly⟩

end Formula
