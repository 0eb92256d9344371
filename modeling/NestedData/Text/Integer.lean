/-!
# Decimal integers

This module writes integers in decimal and reads them back.  The written form has no sign before a
non-negative number and no leading zeros.  The reader is more liberal: it takes an optional sign
and any positive number of ASCII digits.

Main results:

- `readInt?_showInt`: reading what was written gives the number back.
- `exactInt64?_eq_some_iff`: an integer has a 64-bit form exactly when it lies in the signed range.
-/

namespace NestedData.Text

/-! ## Writing -/

/-- A natural number in decimal. -/
def showNat (n : Nat) : List Char :=
  Nat.toDigits 10 n

/-- An integer in decimal, with a minus sign before a negative one. -/
def showInt (n : Int) : List Char :=
  if n < 0 then '-' :: showNat n.natAbs else showNat n.natAbs

/-- An integer in decimal, as part of a message. -/
def ofInt (n : Int) : String :=
  String.ofList (showInt n)

/-- A natural number in decimal, as part of a message. -/
def ofNat (n : Nat) : String :=
  String.ofList (showNat n)

/-! ## Reading -/

/-- Reads a number written with one or more ASCII digits and nothing else. -/
def readDigits? (text : List Char) : Option Nat :=
  if text ≠ [] ∧ text.all Char.isDigit then some (Nat.ofDigitChars 10 text 0) else none

/-- Reads an unsigned integer, which may carry a plus sign. -/
def readNat? : List Char → Option Nat
  | '+' :: digits => readDigits? digits
  | digits => readDigits? digits

/-- Reads an integer, which may carry a plus or a minus sign. -/
def readInt? : List Char → Option Int
  | '-' :: digits => (readDigits? digits).map fun n : Nat => -(n : Int)
  | '+' :: digits => (readDigits? digits).map fun n : Nat => (n : Int)
  | digits => (readDigits? digits).map fun n : Nat => (n : Int)

/-- The 64-bit form of an integer of the signed range. -/
def exactInt64? (n : Int) : Option Int64 :=
  if -0x8000000000000000 ≤ n ∧ n < 0x8000000000000000 then some (Int64.ofInt n) else none

/-- Reads an integer of the signed 64-bit range. -/
def readInt64? (text : List Char) : Option Int64 :=
  (readInt? text).bind exactInt64?

/-! ## Reading what was written -/

theorem readDigits?_showNat (n : Nat) : readDigits? (showNat n) = some n := by
  have digits : (showNat n).all Char.isDigit = true := by
    simp only [List.all_eq_true]
    intro c mem
    exact Nat.isDigit_of_mem_toDigits (by decide) (by decide) mem
  rw [readDigits?, if_pos ⟨Nat.toDigits_ne_nil, digits⟩, showNat, Nat.ofDigitChars_toDigits] <;>
    decide

/-- The decimal form of an integer reads as that integer. -/
theorem readInt?_showInt (n : Int) : readInt? (showInt n) = some n := by
  unfold showInt
  split
  · rename_i negative
    simp only [readInt?, readDigits?_showNat, Option.map_some]
    rw [Int.ofNat_natAbs_of_nonpos (Int.le_of_lt negative), Int.neg_neg]
  · rename_i positive
    have digit : ∀ c ∈ (showNat n.natAbs).head?, c.isDigit = true := by
      intro c mem
      exact Nat.isDigit_of_mem_toDigits (by decide) (by decide) (List.mem_of_mem_head? mem)
    have plain : readInt? (showNat n.natAbs) =
        (readDigits? (showNat n.natAbs)).map fun n : Nat => (n : Int) := by
      unfold readInt?
      split
      · rename_i shape
        exact absurd (digit '-' (by simp [shape])) (by decide)
      · rename_i shape
        exact absurd (digit '+' (by simp [shape])) (by decide)
      · rfl
    rw [plain, readDigits?_showNat, Option.map_some, Int.natAbs_of_nonneg (Int.not_lt.1 positive)]

/-- An integer has a 64-bit form exactly when it lies in the signed range, and the form has the
integer's value. -/
theorem exactInt64?_eq_some_iff {n : Int} {word : Int64} :
    exactInt64? n = some word ↔ word.toInt = n := by
  unfold exactInt64?
  constructor
  · intro h
    split at h
    · rename_i range
      cases h
      exact Int64.toInt_ofInt_of_le (by simpa using range.1) (by simpa using range.2)
    · cases h
  · rintro rfl
    have low := word.le_toInt
    have high := word.toInt_lt
    simp [Int64.ofInt_toInt]
    omega

end NestedData.Text
