import Formula.Operation.Apply
import Formula.Proofs.Binary64.Exact

/-!
# Arithmetic that does not wrap

An operation on integers answers with the exact integer if that has at most sixty-four bits. If it
has more, the operands are widened and the operation is done in floating point, as it is from the
beginning when one of the operands is a floating-point number. `Arithmetic.ExactBinary` says this
of an operation on two numbers, and `Arithmetic.ExactUnary` of one that changes at most the sign of
a number, after which only the least integer has more than sixty-four bits.

A minus sign stands for an operation on two numbers and for one on one number; the number of
arguments says which is meant. `Operation.apply_exact` is about the operations as they are applied.
-/

namespace Formula

namespace Value

variable {z : Int}

/-- An exact integer of at most sixty-four bits is the answer. -/
theorem exists_exactOr_eq (widened : Binary64) (h : Integer.Fits z) :
    ∃ n : Int64, n.toInt = z ∧ exactOr widened z = integer n := by
  obtain ⟨n, hn, hvalue⟩ := Integer.exists_ofInt?_of_fits h
  refine ⟨n, hvalue, ?_⟩
  rw [exactOr, hn]

/-- An exact result out of range is given up for the widened one. -/
private theorem exactOr_eq_float (widened : Binary64) (h : ¬Integer.Fits z) :
    exactOr widened z = float widened := by
  rw [exactOr, Integer.ofInt?_eq_none_iff.mpr h]

end Value

namespace Arithmetic

/-- An operation on two numbers is exact on integers as far as sixty-four bits go, and beyond them
the floating-point operation on the widened integers; if one of the numbers is a floating-point
number, it is the floating-point operation on both of them widened. -/
structure ExactBinary (apply : List Value → Except RuntimeError Value) (exact : Int → Int → Int)
    (rounded : Binary64 → Binary64 → Binary64) : Prop where
  integer : ∀ a b : Int64, Integer.Fits (exact a.toInt b.toInt) →
    ∃ n : Int64, n.toInt = exact a.toInt b.toInt ∧
      apply [.integer a, .integer b] = .ok (.integer n)
  widened : ∀ a b : Int64, ¬Integer.Fits (exact a.toInt b.toInt) →
    apply [.integer a, .integer b] = .ok (.float (rounded (.ofInt64 a) (.ofInt64 b)))
  float : ∀ v w : Value, v.isBoolean = false → w.isBoolean = false →
    v.isFloat = true ∨ w.isFloat = true →
    apply [v, w] = .ok (.float (rounded v.toFloat w.toFloat))

/-- An operation on one number is exact on every integer but the least one, for which it gives the
floating-point number `2 ^ 63`. -/
structure ExactUnary (apply : List Value → Except RuntimeError Value) (exact : Int → Int)
    (rounded : Binary64 → Binary64) : Prop where
  integer : ∀ n : Int64, n ≠ Int64.minValue →
    ∃ m : Int64, m.toInt = exact n.toInt ∧ apply [.integer n] = .ok (.integer m)
  least : ∃ x : Binary64, x.value? = some (2 ^ 63) ∧
    apply [.integer Int64.minValue] = .ok (.float x)
  float : ∀ x : Binary64, apply [.float x] = .ok (.float (rounded x))

variable {apply apply' : List Value → Except RuntimeError Value}

/-- Whether an operation is exact depends on its results for two arguments alone. -/
theorem ExactBinary.congr {exact : Int → Int → Int} {rounded : Binary64 → Binary64 → Binary64}
    (h : ExactBinary apply exact rounded) (heq : ∀ v w, apply' [v, w] = apply [v, w]) :
    ExactBinary apply' exact rounded where
  integer a b := heq _ _ ▸ h.integer a b
  widened a b := heq _ _ ▸ h.widened a b
  float v w := heq v w ▸ h.float v w

/-- What combines exact integers, or else widened numbers, is exact. -/
private theorem exactBinary_combine (name : String) (exact : Int → Int → Int)
    (rounded : Binary64 → Binary64 → Binary64) :
    ExactBinary (combine name exact rounded) exact rounded where
  integer a b h := by
    obtain ⟨n, hvalue, hn⟩ := Value.exists_exactOr_eq (rounded (.ofInt64 a) (.ofInt64 b)) h
    exact ⟨n, hvalue, congrArg Except.ok hn⟩
  widened a b h := congrArg Except.ok (Value.exactOr_eq_float _ h)
  float v w hv hw h := by
    cases v with
    | boolean => exact absurd (show true = false from hv) (by decide)
    | integer a =>
      cases w with
      | boolean => exact absurd (show true = false from hw) (by decide)
      | integer b => exact absurd (show false = true ∨ false = true from h) (by decide)
      | float y => rfl
    | float x =>
      cases w with
      | boolean => exact absurd (show true = false from hw) (by decide)
      | integer b => rfl
      | float y => rfl

/-- An operation that keeps the magnitudes of integers is exact for all but the least one. -/
private theorem exactUnary_of_exactOr {exact : Int → Int} {rounded : Binary64 → Binary64}
    (hinteger : ∀ n : Int64,
      apply [.integer n] = .ok (.exactOr (rounded (.ofInt64 n)) (exact n.toInt)))
    (habs : ∀ z, (exact z).natAbs = z.natAbs) (hleast : exact (-2 ^ 63) = 2 ^ 63)
    (hrounded : rounded (.ofInt64 Int64.minValue) = .ofNat false (2 ^ 63))
    (hfloat : ∀ x : Binary64, apply [.float x] = .ok (.float (rounded x))) :
    ExactUnary apply exact rounded where
  integer n hn := by
    have hfits : Integer.Fits (exact n.toInt) := by
      refine Integer.fits_of_natAbs_lt ?_
      rw [habs]
      exact Integer.natAbs_toInt_lt hn
    obtain ⟨m, hvalue, hm⟩ := Value.exists_exactOr_eq (rounded (.ofInt64 n)) hfits
    exact ⟨m, hvalue, by rw [hinteger, hm]⟩
  least := by
    have hnot : ¬Integer.Fits (exact Int64.minValue.toInt) := by
      rw [show Int64.minValue.toInt = -2 ^ 63 from rfl, hleast]
      decide
    refine ⟨.ofNat false (2 ^ 63),
      Binary64.value?_ofNat (Binary64.representable_two_pow_mul_unitsPerOne (by decide)) false, ?_⟩
    rw [hinteger, Value.exactOr_eq_float _ hnot, hrounded]
  float := hfloat

end Arithmetic

/-- **Arithmetic does not wrap.** -/
theorem Operation.apply_exact :
    Arithmetic.ExactBinary Operation.plus.apply (· + ·) Binary64.add ∧
      Arithmetic.ExactBinary Operation.minus.apply (· - ·) Binary64.sub ∧
      Arithmetic.ExactBinary Operation.multiply.apply (· * ·) Binary64.mul ∧
      Arithmetic.ExactUnary Operation.minus.apply (- ·) Binary64.neg ∧
      Arithmetic.ExactUnary Operation.abs.apply (fun z => z.natAbs) Binary64.abs := by
  refine ⟨?_, ?_, ?_, ?_, ?_⟩
  · exact (Arithmetic.exactBinary_combine "+" _ _).congr fun _ _ => rfl
  · exact (Arithmetic.exactBinary_combine "-" _ _).congr fun _ _ => rfl
  · exact Arithmetic.exactBinary_combine "*" _ _
  · exact Arithmetic.exactUnary_of_exactOr (fun _ => rfl) Int.natAbs_neg (by decide)
      (by decide +kernel) fun _ => rfl
  · exact Arithmetic.exactUnary_of_exactOr (fun _ => rfl) (fun z => Int.natAbs_natCast z.natAbs)
      (by decide) (by decide +kernel) fun _ => rfl

end Formula
