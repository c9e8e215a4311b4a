import Formula.Operation.Apply
import Formula.Proofs.Binary64.Ulp
import Formula.Proofs.Value.Order

/-!
# Comparisons

The six comparisons ask about one order of the values (`Value.Ordered`), so that each of them can be
had from others: a value is above another one if that is below it, at most another one if it is
below or equal to it, and unequal if it is not equal. What is not a number is unequal to everything
and answers no to all other questions.

Approximate equality counts steps. With a floating-point number among the two values it allows at
most four of them between the widened values, and what is equal is no step apart; without one it is
equality of integers.
-/

namespace Formula

namespace Comparison

variable {a b c : Value} {r : Bool}

/-- The operation answers with the truth value. -/
def Answers (o : Operation) (a b : Value) (r : Bool) : Prop := o.apply [a, b] = .ok (.boolean r)

private theorem answers_iff {o : Operation} {s : Bool} (h : Answers o a b s) :
    Answers o a b r ↔ s = r := by
  rw [Answers, h, Except.ok.injEq, Value.boolean.injEq]

/-- How the six comparisons of two values go with their order and with each other. -/
structure Agree (a b : Value) : Prop where
  less : Answers .less a b (a.compare? b == some .lt)
  equal : Answers .equal a b (a.compare? b == some .eq)
  greater : Operation.greater.apply [a, b] = Operation.less.apply [b, a]
  lessEqual : ∀ l e, Answers .less a b l → Answers .equal a b e → Answers .lessEqual a b (l || e)
  greaterEqual : ∀ g e, Answers .greater a b g → Answers .equal a b e →
    Answers .greaterEqual a b (g || e)
  notEqual : ∀ e, Answers .equal a b e → Answers .notEqual a b !e
  nan : a = .float .nan ∨ b = .float .nan →
    (∀ o ∈ [Operation.less, .greater, .lessEqual, .greaterEqual, .equal], Answers o a b false) ∧
      Answers .notEqual a b true

/-- The comparisons are all read off the order of the two values. -/
private theorem agree (a b : Value) : Agree a b where
  less := rfl
  equal := rfl
  greater := by
    have hswap : (a.compare? b == some .gt) = (b.compare? a == some .lt) := by
      rw [(Value.ordered a b b).swap]
      obtain _ | _ | _ | _ := a.compare? b <;> rfl
    exact congrArg (fun r => Except.ok (Value.boolean r)) hswap
  lessEqual l e hl he := by
    obtain rfl := (answers_iff (o := .less) rfl).mp hl
    obtain rfl := (answers_iff (o := .equal) rfl).mp he
    rfl
  greaterEqual g e hg he := by
    obtain rfl := (answers_iff (o := .greater) rfl).mp hg
    obtain rfl := (answers_iff (o := .equal) rfl).mp he
    rfl
  notEqual e he := by
    obtain rfl := (answers_iff (o := .equal) rfl).mp he
    rfl
  nan h := by
    have hnone : a.compare? b = none := (Value.ordered a b b).eq_none_iff.mpr h
    have hanswer : ∀ {o : Operation} (holds : Option Ordering → Bool),
        Answers o a b (holds (a.compare? b)) → Answers o a b (holds none) :=
      fun holds h => hnone ▸ h
    refine ⟨fun o ho => ?_, hanswer (· != some .eq) rfl⟩
    simp only [List.mem_cons, List.not_mem_nil, or_false] at ho
    obtain rfl | rfl | rfl | rfl | rfl := ho
    · exact hanswer (· == some .lt) rfl
    · exact hanswer (· == some .gt) rfl
    · exact hanswer (fun o => o == some .lt || o == some .eq) rfl
    · exact hanswer (fun o => o == some .gt || o == some .eq) rfl
    · exact hanswer (· == some .eq) rfl

/-! ### Approximate equality -/

/-- What approximate equality of two values is. -/
structure Approximates (a b : Value) : Prop where
  answers : ∃ r, Answers .approxEqual a b r
  symm : Operation.approxEqual.apply [a, b] = Operation.approxEqual.apply [b, a]
  of_equal : Answers .equal a b true → Answers .approxEqual a b true
  float_iff : a.isFloat = true ∨ b.isFloat = true → (Answers .approxEqual a b true ↔
    a.toFloat ≠ .nan ∧ b.toFloat ≠ .nan ∧ Binary64.steps a.toFloat b.toFloat ≤ 4)
  exact : a.isFloat = false → b.isFloat = false → ∃ m n : Int64,
    a.toInteger = .ok m ∧ b.toInteger = .ok n ∧ Answers .approxEqual a b (decide (m = n))

private theorem answers_approxEqual (a b : Value) :
    Answers .approxEqual a b (approximatelyEqual a b) := rfl

/-- Where a float is involved, widened values are to be near. -/
private theorem approximatelyEqual_of_isFloat (h : a.isFloat = true ∨ b.isFloat = true) :
    approximatelyEqual a b = a.toFloat.near b.toFloat :=
  if_pos ((Bool.or_eq_true _ _).mpr h)

private theorem approximatelyEqual_of_not_isFloat (ha : a.isFloat = false)
    (hb : b.isFloat = false) :
    approximatelyEqual a b = a.equals b := by
  rw [approximatelyEqual, ha, hb]
  rfl

private theorem equals_comm (a b : Value) : a.equals b = b.equals a := by
  rw [Value.equals, Value.equals, (Value.ordered a b b).swap]
  obtain _ | _ | _ | _ := a.compare? b <;> rfl

private theorem approximatelyEqual_comm (a b : Value) :
    approximatelyEqual a b = approximatelyEqual b a := by
  rw [approximatelyEqual, approximatelyEqual, Bool.or_comm, Binary64.near_comm, equals_comm]

/-- A value that is no floating-point number is compared as an integer. -/
theorem exists_toInteger (h : a.isFloat = false) :
    ∃ n, a.toInteger = .ok n ∧ a.comparand = .integer n := by
  cases a with
  | integer n => exact ⟨n, rfl, rfl⟩
  | boolean b => exact ⟨Value.bit b, rfl, rfl⟩
  | float x => exact absurd h.symm Bool.false_ne_true

/-- Equal values are near, whatever their types are. -/
private theorem approximatelyEqual_of_equals (h : a.compare? b = some .eq) :
    approximatelyEqual a b = true := by
  rw [approximatelyEqual]
  split
  · obtain ⟨p, ha, hb⟩ := Value.Comparand.place_of_eq h
    rw [Value.Comparand.place?, Value.toFloat_comparand] at ha hb
    rw [Binary64.near_iff_of_place? ha hb, Int.sub_self]
    decide
  · rw [Value.equals, h]
    rfl

private theorem approximates (a b : Value) : Approximates a b where
  answers := ⟨_, answers_approxEqual a b⟩
  symm := by
    rw [answers_approxEqual a b, answers_approxEqual b a, approximatelyEqual_comm]
  of_equal h := by
    have heq : a.compare? b = some .eq := eq_of_beq ((answers_iff (agree a b).equal).mp h)
    exact (answers_iff (answers_approxEqual a b)).mpr (approximatelyEqual_of_equals heq)
  float_iff h := by
    rw [answers_iff (answers_approxEqual a b), approximatelyEqual_of_isFloat h,
      Binary64.near_iff_steps_le]
  exact ha hb := by
    obtain ⟨m, hm, hm'⟩ := exists_toInteger ha
    obtain ⟨n, hn, hn'⟩ := exists_toInteger hb
    refine ⟨m, n, hm, hn, (answers_iff (answers_approxEqual a b)).mpr ?_⟩
    rw [approximatelyEqual_of_not_isFloat ha hb, Value.equals, Value.compare?, hm', hn',
      Value.Comparand.compare?_integer, Bool.eq_iff_iff, beq_iff_eq, Option.some_inj,
      compare_eq_iff_eq, Int64.toInt_inj, decide_eq_true_iff]

end Comparison

/-- **Comparisons follow one order of the values**, which rounding integers does not disturb. -/
theorem Operation.comparisons_agree (a b c : Value) :
    Value.Ordered a b c ∧ Comparison.Agree a b :=
  ⟨Value.ordered a b c, Comparison.agree a b⟩

/-- **Approximate equality counts the numbers between its operands.** -/
theorem Operation.approxEqual_counts (p q r : UInt64) (a b : Value) :
    Binary64.Stepwise p q r ∧ Comparison.Approximates a b :=
  ⟨Binary64.stepwise p q r, Comparison.approximates a b⟩

end Formula
