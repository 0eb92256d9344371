import NestedData.Decimal.Numeral

/-!
# The shortest decimal digits of a number

This module finds, for a finite double precision number, the decimal number with the fewest digits
that reads back as it.  For one digit, two digits and so on up to seventeen, the two decimals with
that many digits on either side of the number are tried; the first length with a decimal that
reads back is taken, and of two such decimals the nearer one.  The reader's own rounding is the test, so
whatever is found reads back by construction; should no length succeed, the exact decimal expansion
is given.

Main results:

- `shortest?_reads_back`: a decimal that the search finds reads back as the number.
-/

namespace NestedData

/-- The decimal number `digits · 10 ^ exponent`. -/
structure Decimal where
  /-- All significant digits, read as one whole number. -/
  digits : Nat
  /-- The power of ten that scales them. -/
  exponent : Int
deriving DecidableEq

/-- What is done with a number that lies exactly between two decimals. -/
inductive Tie
  /-- The decimal with the even last digit is taken. -/
  | toEven
  /-- The larger decimal is taken. -/
  | upward
deriving DecidableEq

namespace Decimal

/-- The double precision number nearest to a decimal. -/
def nearest (decimal : Decimal) : Binary64 :=
  .ofDecimal false decimal.digits decimal.exponent

/-- The same decimal without zeros at the end of its digits. -/
def strip (decimal : Decimal) : Decimal :=
  if _ends : decimal.digits ≠ 0 ∧ decimal.digits % 10 = 0 then
    strip { digits := decimal.digits / 10, exponent := decimal.exponent + 1 }
  else if decimal.digits = 0 then { digits := 0, exponent := 0 }
  else decimal
termination_by decimal.digits
decreasing_by omega

/-- The greatest `e` with `10 ^ e ≤ num / den`, for positive `num` and `den`. -/
def decade (num den : Nat) : Int :=
  let guess : Int := (Binary64.decimalLength num : Int) - Binary64.decimalLength den
  if num * Nat.pow 10 (-guess).toNat < den * Nat.pow 10 guess.toNat then guess - 1 else guess

/-- Of the two multiples of `10 ^ exponent` on either side of `num / den`, the one that `accepts`
admits; of two admitted ones the nearer. -/
def neighbour? (tie : Tie) (num den : Nat) (exponent : Int) (accepts : Decimal → Bool) :
    Option Decimal :=
  let scaledNum := num * Nat.pow 10 (-exponent).toNat
  let scaledDen := den * Nat.pow 10 exponent.toNat
  let below : Decimal := { digits := scaledNum / scaledDen, exponent }
  let above : Decimal := { digits := scaledNum / scaledDen + 1, exponent }
  let rest := 2 * (scaledNum % scaledDen)
  let takesBelow := rest < scaledDen ∨
    (rest = scaledDen ∧ tie = .toEven ∧ below.digits % 2 = 0)
  match accepts below, accepts above with
  | true, true => some (if takesBelow then below else above)
  | true, false => some below
  | false, true => some above
  | false, false => none

/-- A neighbour that is found is admitted. -/
theorem accepts_of_neighbour? {tie : Tie} {num den : Nat} {exponent : Int}
    {accepts : Decimal → Bool} {decimal : Decimal}
    (found : neighbour? tie num den exponent accepts = some decimal) :
    accepts decimal = true := by
  unfold neighbour? at found
  simp only at found
  split at found
  · rename_i below above
    cases found
    split
    · exact below
    · exact above
  · rename_i below _
    cases found
    exact below
  · rename_i _ above
    cases found
    exact above
  · cases found

/-- The first of seventeen lengths at which a decimal reads back as `target`, which lies at
`num / den`. -/
def shortest? (tie : Tie) (target : Binary64) (num den : Nat) : Option Decimal :=
  (List.range 17).findSome? fun extra : Nat =>
    neighbour? tie num den (decade num den - extra) fun decimal => decimal.nearest == target

/-- A decimal that the search finds reads back as the number searched for. -/
theorem shortest?_reads_back {tie : Tie} {target : Binary64} {num den : Nat} {decimal : Decimal}
    (found : shortest? tie target num den = some decimal) : decimal.nearest = target := by
  obtain ⟨extra, _, hit⟩ := List.exists_of_findSome?_eq_some found
  exact beq_iff_eq.1 (accepts_of_neighbour? hit)

/-- The decimal expansion of `mantissa · 2 ^ exponent`, without loss. -/
def expansion (mantissa : Nat) (exponent : Int) : Decimal :=
  { digits := mantissa <<< exponent.toNat * Nat.pow 5 (-exponent).toNat
    exponent := if exponent < 0 then exponent else 0 }

/-- The shortest decimal that reads back as the finite number `mantissa · 2 ^ exponent`. -/
def ofFinite (tie : Tie) (mantissa : Nat) (exponent : Int)
    (canonical : Binary64.Canonical mantissa exponent) : Decimal :=
  if mantissa = 0 then { digits := 0, exponent := 0 }
  else
    let found := shortest? tie (.finite false mantissa exponent canonical)
      (mantissa <<< exponent.toNat) (1 <<< (-exponent).toNat)
    (found.getD (expansion mantissa exponent)).strip

end Decimal

end NestedData
