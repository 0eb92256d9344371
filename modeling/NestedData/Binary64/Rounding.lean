import NestedData.Binary64.Basic

/-!
# Rounding to double precision

This module rounds exact quotients of natural numbers to the nearest double precision number.  Of
two equally near numbers the one with the even mantissa is taken, numbers beyond the range become
infinities, and numbers below the smallest positive one become that number or zero.  Integers and
differences are rounded through the same function, once.

Main results:

- `roundDiv_mul_right`: an exact quotient is not changed by rounding.
- `ofCarry_canonical`: a mantissa and exponent in stored form are stored as they are.
-/

namespace NestedData.Binary64

/-! ## Rounding a quotient -/

/-- The quotient rounded to the nearest natural number; of two equally near ones the even one. -/
def roundDiv (num den : Nat) : Nat :=
  let quotient := num / den
  let rest := num % den
  if 2 * rest < den ∨ (2 * rest = den ∧ quotient % 2 = 0) then quotient else quotient + 1

/-- An exact quotient is not changed by rounding. -/
theorem roundDiv_mul_right (quotient : Nat) {den : Nat} (positive : 0 < den) :
    roundDiv (quotient * den) den = quotient := by
  simp [roundDiv, Nat.mul_div_cancel _ positive, positive]

/-- The greatest `e` with `2 ^ e ≤ num / den`, for positive `num` and `den`. -/
def binade (num den : Nat) : Int :=
  let guess : Int := (num.log2 : Int) - den.log2
  if num <<< (-guess).toNat < den <<< guess.toNat then guess - 1 else guess

/-- The number of multiples of `2 ^ exponent` nearest to `num / den`. -/
def roundAt (exponent : Int) (num den : Nat) : Nat :=
  roundDiv (num <<< (-exponent).toNat) (den <<< exponent.toNat)

/-! ## Storing a rounded mantissa -/

/-- Stores `± mantissa · 2 ^ exponent`, or an infinity if that is beyond every finite number. -/
def ofStored (negative : Bool) (mantissa : Nat) (exponent : Int) : Binary64 :=
  if canonical : Canonical mantissa exponent then
    .finite negative mantissa exponent canonical
  else .infinite negative

/-- Stores a mantissa that rounding may have carried up to `2 ^ 53`. -/
def ofCarry (negative : Bool) (mantissa : Nat) (exponent : Int) : Binary64 :=
  if mantissa = 2 * fractionRange then ofStored negative fractionRange (exponent + 1)
  else ofStored negative mantissa exponent

/-- A mantissa and exponent in stored form are stored as they are. -/
theorem ofCarry_canonical (negative : Bool) {mantissa : Nat} {exponent : Int}
    (canonical : Canonical mantissa exponent) :
    ofCarry negative mantissa exponent = .finite negative mantissa exponent canonical := by
  have := canonical.parts
  rw [ofCarry, if_neg (by omega), ofStored, dif_pos canonical]

/-- The number nearest to `± num / den`. -/
def ofRatio (negative : Bool) (num den : Nat) : Binary64 :=
  if num = 0 then zero negative
  else
    let exponent := max (binade num den - 52) (-1074)
    ofCarry negative (roundAt exponent num den) exponent

/-- The number nearest to an integer. -/
def ofInt (n : Int) : Binary64 :=
  ofRatio (n < 0) n.natAbs 1

/-! ## Differences -/

/-- The difference of two numbers, rounded once.  The difference of an infinity and itself is
undefined. -/
def sub : Binary64 → Binary64 → Binary64
  | .nan, _ | _, .nan => .nan
  | .infinite left, .infinite right => if left = right then .nan else .infinite left
  | .infinite left, _ => .infinite left
  | _, .infinite right => .infinite !right
  | .finite leftSign left leftExponent _, .finite rightSign right rightExponent _ =>
    let units := unitsOf leftSign left leftExponent - unitsOf rightSign right rightExponent
    if units = 0 then zero (leftSign && !rightSign)
    else ofRatio (units < 0) units.natAbs (1 <<< 1074)

end NestedData.Binary64
