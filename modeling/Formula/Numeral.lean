/-!
# Decimal numerals

The digits of a natural number, most significant first, and the number that a row of digits
denotes. `Numeral.value_digits` says that reading takes back what writing gives, and
`Numeral.isDigit_of_mem_digits` that a numeral consists of digits alone.
-/

namespace Formula.Numeral

/-- The character of a digit below ten. -/
def digit (d : Nat) : Char := Char.ofNat (d + 48)

/-- The number that the character of a digit stands for. -/
def digitValue (c : Char) : Nat := c.toNat - 48

/-- The digits of a number, most significant first; zero has one digit. -/
def digits (n : Nat) : List Char :=
  if n < 10 then [digit n] else digits (n / 10) ++ [digit (n % 10)]
termination_by n
decreasing_by omega

/-- How many digits a number has. -/
def digitCount (n : Nat) : Nat :=
  if n < 10 then 1 else digitCount (n / 10) + 1
termination_by n
decreasing_by omega

/-- The number that a row of digits denotes; the empty row denotes zero. -/
def value (cs : List Char) : Nat :=
  cs.foldl (fun n c => n * 10 + digitValue c) 0

private theorem digitValue_digit : ∀ d, d < 10 → digitValue (digit d) = d := by decide

private theorem isDigit_digit : ∀ d, d < 10 → (digit d).isDigit = true := by decide

/-- One digit more at the end makes the value ten times as large and adds the digit. -/
theorem value_append_singleton (cs : List Char) (c : Char) :
    value (cs ++ [c]) = value cs * 10 + digitValue c := by
  simp [value]

/-- A numeral reads back as its number. -/
theorem value_digits (n : Nat) : value (digits n) = n := by
  rw [digits]
  split
  · simp [value, digitValue_digit _ ‹_›]
  · rw [value_append_singleton, value_digits (n / 10), digitValue_digit _ (by omega)]
    omega
termination_by n
decreasing_by omega

theorem isDigit_of_mem_digits {n : Nat} {c : Char} (h : c ∈ digits n) : c.isDigit = true := by
  rw [digits] at h
  split at h
  · rw [List.mem_singleton] at h
    exact h ▸ isDigit_digit n ‹_›
  · rcases List.mem_append.1 h with h | h
    · exact isDigit_of_mem_digits h
    · rw [List.mem_singleton] at h
      exact h ▸ isDigit_digit _ (by omega)
termination_by n
decreasing_by omega

/-- The digits are counted without writing them. -/
theorem length_digits (n : Nat) : (digits n).length = digitCount n := by
  rw [digits, digitCount]
  split
  · rfl
  · rw [List.length_append, length_digits (n / 10)]
    rfl
termination_by n
decreasing_by omega

/-- The digits of an integer behind a minus sign if it is negative. -/
def ofInt (z : Int) : List Char :=
  if z < 0 then '-' :: digits z.natAbs else digits z.natAbs

/-- The characters as a number if they are a nonempty row of digits. -/
def read? (cs : List Char) : Option Nat :=
  if cs ≠ [] ∧ cs.all Char.isDigit then some (value cs) else none

/-- The characters as an integer if they are a nonempty row of digits, perhaps behind a
sign. -/
def readInt? : List Char → Option Int
  | '+' :: cs => (read? cs).map fun n => (n : Int)
  | '-' :: cs => (read? cs).map fun n => -(n : Int)
  | cs => (read? cs).map fun n => (n : Int)

end Formula.Numeral
