import Formula.Operation.Apply
import Mathlib.Data.Int.ModEq
import Mathlib.Data.Rat.Floor

/-!
# Shifts

A shift moves the bits of an integer. Said with numbers, the shift to the left by `k` places is a
product with `2 ^ k`, taken modulo `2 ^ 64`, and the shift to the right is the floor of a quotient
by it, for negative integers as well (`Bitwise.toInt_shiftedLeft`, `Bitwise.toInt_shiftedRight`).
So the second one undoes the first if the product has at most sixty-four bits, and only then.

The amount of a shift is an integer like any other. `Bitwise.shift_eq_of_lt` and
`Bitwise.shift_eq_outOfRange` say which amounts get past both of the places where it is looked at:
those of less than sixty-four, and no others. An amount that is negative, or large enough to lose
bits when it is made a number of thirty-two, is not taken for a small one.
-/

namespace Formula

namespace Integer

variable {n : Int64} {z : Int}

/-- An integer of thirty-two bits without a sign keeps its value. -/
theorem exists_toUInt32?_eq (h : 0 ≤ n.toInt) (hlt : n.toInt < 2 ^ 32) :
    ∃ k, toUInt32? n = some k ∧ (k.toNat : Int) = n.toInt := by
  refine ⟨_, if_pos ⟨h, hlt⟩, ?_⟩
  rw [UInt32.toNat_ofNat_of_lt' (by rw [UInt32.size]; omega), Int.toNat_of_nonneg h]

private theorem toUInt32?_eq_none (h : ¬(0 ≤ n.toInt ∧ n.toInt < 2 ^ 32)) : toUInt32? n = none :=
  if_neg h

/-- An integer of sixty-four bits that agrees with another one modulo `2 ^ 64` is that one if it
has at most sixty-four bits. -/
theorem toInt_eq_iff_fits (h : n.toInt ≡ z [ZMOD 2 ^ 64]) : n.toInt = z ↔ Fits z := by
  constructor
  · rintro rfl
    exact fits_toInt n
  · intro hz
    have hn := fits_toInt n
    rw [Int.ModEq] at h
    rw [Fits] at hz hn
    omega

end Integer

namespace Bitwise

/-! ### The bits -/

variable {f : BitVec 64 → Nat → BitVec 64} {n a b : Int64} {places : UInt32} {k : Nat}

private theorem shifted?_of_lt (h : places.toNat < 64) :
    shifted? f n places = some (.ofBitVec (f n.toBitVec places.toNat)) :=
  if_pos (UInt32.lt_iff_toNat_lt.mpr h)

/-- There are no shifts by sixty-four places or more. -/
private theorem shifted?_eq_none (h : 64 ≤ places.toNat) : shifted? f n places = none :=
  if_neg fun hlt => Nat.not_lt.mpr h (UInt32.lt_iff_toNat_lt.mp hlt)

private theorem bmod_modEq (z : Int) : z.bmod (2 ^ 64) ≡ z [ZMOD 2 ^ 64] := by
  exact_mod_cast Int.bmod_emod (x := z) (m := 2 ^ 64)

/-- Bits moved to the left are a product, of which the higher bits are lost. -/
theorem toInt_shiftedLeft (n : Int64) (k : Nat) :
    (Int64.ofBitVec (n.toBitVec <<< k)).toInt ≡ n.toInt * 2 ^ k [ZMOD 2 ^ 64] := by
  have hsigned : n.toInt ≡ n.toBitVec.toNat [ZMOD 2 ^ 64] := by
    rw [← Int64.toInt_toBitVec, BitVec.toInt_eq_toNat_bmod]
    exact bmod_modEq _
  calc (Int64.ofBitVec (n.toBitVec <<< k)).toInt
      = ((n.toBitVec.toNat <<< k : Nat) : Int).bmod (2 ^ 64) := by
        rw [Int64.toInt_ofBitVec, BitVec.toInt_shiftLeft]
    _ ≡ ((n.toBitVec.toNat <<< k : Nat) : Int) [ZMOD 2 ^ 64] := bmod_modEq _
    _ = n.toBitVec.toNat * 2 ^ k := by rw [Nat.shiftLeft_eq]; push_cast; rfl
    _ ≡ n.toInt * 2 ^ k [ZMOD 2 ^ 64] := (hsigned.mul_right _).symm

/-- Bits moved to the right are a quotient, rounded down. -/
theorem toInt_shiftedRight (n : Int64) (k : Nat) :
    (Int64.ofBitVec (n.toBitVec.sshiftRight k)).toInt = ⌊(n.toInt : ℚ) / 2 ^ k⌋ := by
  rw [Int64.toInt_ofBitVec, BitVec.toInt_sshiftRight, Int64.toInt_toBitVec,
    Int.shiftRight_eq_div_pow, ← Rat.floor_intCast_div_natCast]
  push_cast
  rfl

/-- What has been moved to the left comes back if the product has not lost any bits: the bits that
it has left are still a multiple of `2 ^ k`. -/
theorem floor_eq_iff {z : Int} (hk : k ≤ 64) (h : n.toInt ≡ z * 2 ^ k [ZMOD 2 ^ 64]) :
    ⌊(n.toInt : ℚ) / 2 ^ k⌋ = z ↔ n.toInt = z * 2 ^ k := by
  have hdvd : (2 : Int) ^ k ∣ n.toInt :=
    (h.of_dvd (pow_dvd_pow 2 hk)).dvd_iff.mpr (dvd_mul_left _ z)
  obtain ⟨c, hc⟩ := hdvd
  have hpos : (2 : Int) ^ k ≠ 0 := pow_ne_zero k two_ne_zero
  have hfloor : ⌊(n.toInt : ℚ) / 2 ^ k⌋ = c := by
    have hquotient : (n.toInt : ℚ) / 2 ^ k = c := by
      rw [hc, Int.cast_mul, Int.cast_pow, Int.cast_ofNat,
        mul_div_cancel_left₀ _ (pow_ne_zero k two_ne_zero)]
    rw [hquotient, Int.floor_intCast]
  rw [hfloor, hc, mul_comm, mul_left_inj' hpos]

/-! ### The amount -/

/-- The two places where an amount is refused are alike. -/
theorem shift_integers (name : String) (f : BitVec 64 → Nat → BitVec 64) (a b : Int64) :
    shift name f [.integer a, .integer b] =
      match (Integer.toUInt32? b).bind (shifted? f a) with
      | some n => .ok (.integer n)
      | none => .error (outOfRange name b) := by
  have hshift : shift name f [.integer a, .integer b] = shiftAmount name b >>= fun places =>
      match shifted? f a places with
      | some n => .ok (.integer n)
      | none => .error (outOfRange name b) := rfl
  rw [hshift, shiftAmount]
  cases Integer.toUInt32? b <;> rfl

/-- An amount of less than sixty-four places gets past both. -/
theorem shift_eq_of_lt (name : String) (hb : b.toInt = k) (hk : k < 64) :
    shift name f [.integer a, .integer b] = .ok (.integer (.ofBitVec (f a.toBitVec k))) := by
  obtain ⟨places, hplaces, hvalue⟩ :=
    Integer.exists_toUInt32?_eq (n := b) (by omega) (by omega)
  obtain rfl : places.toNat = k := by omega
  rw [shift_integers, hplaces, Option.bind_some, shifted?_of_lt hk]

/-- Every other amount is refused, in the first place or in the second. -/
theorem shift_eq_outOfRange (name : String) (hb : b.toInt < 0 ∨ 64 ≤ b.toInt) :
    shift name f [.integer a, .integer b] = .error (outOfRange name b) := by
  rw [shift_integers]
  by_cases hwide : 0 ≤ b.toInt ∧ b.toInt < 2 ^ 32
  · obtain ⟨places, hplaces, hvalue⟩ := Integer.exists_toUInt32?_eq hwide.1 hwide.2
    rw [hplaces, Option.bind_some, shifted?_eq_none (by omega)]
  · rw [Integer.toUInt32?_eq_none hwide, Option.bind_none]

/-- An operation shifts integers by the amounts of less than sixty-four places, and `Result` says
what of the first integer and the number of places its value is. Every other amount is an error
that names the operation and this amount. -/
structure Shifts (apply : List Value → Except RuntimeError Value) (name : String)
    (Result : Int → Nat → Int → Prop) : Prop where
  shifted : ∀ (a b : Int64) (k : Nat), b.toInt = k → k < 64 →
    ∃ n : Int64, apply [.integer a, .integer b] = .ok (.integer n) ∧ Result a.toInt k n.toInt
  refused : ∀ a b : Int64, b.toInt < 0 ∨ 64 ≤ b.toInt →
    apply [.integer a, .integer b] = .error (.domain name (.shiftAmount b)) ∧
      (RuntimeError.domain name (.shiftAmount b)).message = "Domain error in '" ++ name ++ "': " ++
        ("shift amount " ++ (Value.integer b).text ++ " is outside 0..64") ++ "."

/-- A shift does with all amounts what it should, if its result is right for those below sixty-four.
-/
private theorem shifts_shift (name : String) {Result : Int → Nat → Int → Prop}
    (h : ∀ (n : Int64) (k : Nat),
      Result n.toInt k (Int64.ofBitVec (f n.toBitVec k)).toInt) :
    Shifts (shift name f) name Result where
  shifted a _ k hb hk := ⟨_, shift_eq_of_lt name hb hk, h a k⟩
  refused _ _ hb := ⟨shift_eq_outOfRange name hb, rfl⟩

end Bitwise

/-- **Shifts are products and quotients by powers of two.** The amounts from zero to sixty-three are
taken and all others refused. A shift to the right undoes one to the left if no bit of the product
has been lost, and only then. -/
theorem Operation.apply_shifts :
    Bitwise.Shifts Operation.shiftLeft.apply "<<" (fun a k n => n ≡ a * 2 ^ k [ZMOD 2 ^ 64]) ∧
      Bitwise.Shifts Operation.shiftRight.apply ">>" (fun a k n => n = ⌊(a : ℚ) / 2 ^ k⌋) ∧
      ∀ a b n : Int64, Operation.shiftLeft.apply [.integer a, .integer b] = .ok (.integer n) →
        (Operation.shiftRight.apply [.integer n, .integer b] = .ok (.integer a) ↔
          Integer.Fits (a.toInt * 2 ^ b.toInt.toNat)) := by
  have hleft : Bitwise.Shifts Operation.shiftLeft.apply "<<"
      (fun a k n => n ≡ a * 2 ^ k [ZMOD 2 ^ 64]) :=
    Bitwise.shifts_shift "<<" Bitwise.toInt_shiftedLeft
  have hright : Bitwise.Shifts Operation.shiftRight.apply ">>"
      (fun a k n => n = ⌊(a : ℚ) / 2 ^ k⌋) :=
    Bitwise.shifts_shift ">>" Bitwise.toInt_shiftedRight
  refine ⟨hleft, hright, fun a b n hn => ?_⟩
  by_cases hb : b.toInt < 0 ∨ 64 ≤ b.toInt
  · rw [(hleft.refused a b hb).1] at hn
    cases hn
  · obtain ⟨k, hk⟩ : ∃ k : Nat, b.toInt = k := Int.eq_ofNat_of_zero_le (by omega)
    have hlt : k < 64 := by omega
    obtain ⟨l, hl, hproduct⟩ := hleft.shifted a b k hk hlt
    obtain ⟨r, hr, hquotient⟩ := hright.shifted n b k hk hlt
    obtain rfl : l = n := by
      rw [hl] at hn
      exact Value.integer.inj (Except.ok.inj hn)
    rw [hr, hk, Int.toNat_natCast, ← Integer.toInt_eq_iff_fits hproduct,
      ← Bitwise.floor_eq_iff hlt.le hproduct, ← hquotient, Int64.toInt_inj, Except.ok.injEq,
      Value.integer.injEq]

/-- By 62 places a small integer becomes the least one and comes back, and one that does not fit
does not. An amount of `2 ^ 32` is refused, though as a number of thirty-two bits it would be
zero. -/
theorem Operation.apply_shifts_far :
    Operation.shiftRight.apply [.integer Int64.minValue, .integer 62] = .ok (.integer (-2)) ∧
      Operation.shiftRight.apply [.integer (-4611686018427387904), .integer 62] ≠ .ok (.integer 3) ∧
      Operation.shiftLeft.apply [.integer 5, .integer 4294967296] =
        .error (.domain "<<" (.shiftAmount 4294967296)) :=
  ⟨(apply_shifts.2.2 (-2) 62 Int64.minValue (by decide)).mpr (by decide),
    mt (apply_shifts.2.2 3 62 (-4611686018427387904) (by decide)).mp (by decide),
    (apply_shifts.1.refused 5 4294967296 (by decide)).1⟩

end Formula
