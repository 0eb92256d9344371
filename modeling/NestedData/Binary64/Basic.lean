/-!
# Double precision numbers

This module fixes the exact value model of double precision arithmetic.  A number is not-a-number,
an infinity, or a sign with `mantissa · 2 ^ exponent`, where mantissa and exponent are in the one
form the format stores.  Every finite number is therefore a whole multiple of the smallest positive
one, `2 ^ -1074`, and questions about finite numbers become questions about integers.

Main results:

- `Binary64.ofBits_toBits`: decoding the stored word of a number gives the number back.
- `Binary64.equals_self_iff`: a number equals itself exactly when it is not not-a-number.
- `Binary64.truncate?_eq_units?`: the integer part is the exact value without its fraction.
-/

namespace NestedData

/-- How many fractions there are, `2 ^ 52`: the least mantissa that fills its 53 bits. -/
def Binary64.fractionRange : Nat :=
  0x10000000000000

/-- Whether `mantissa · 2 ^ exponent` is in stored form: the mantissa fills its 53 bits unless the
exponent is the least one. -/
def Binary64.Canonical (mantissa : Nat) (exponent : Int) : Prop :=
  mantissa < 2 * fractionRange ∧ -1074 ≤ exponent ∧ exponent ≤ 971 ∧
    (mantissa < fractionRange → exponent = -1074)

theorem Binary64.Canonical.parts {mantissa : Nat} {exponent : Int}
    (canonical : Binary64.Canonical mantissa exponent) :
    mantissa < 2 * fractionRange ∧ -1074 ≤ exponent ∧ exponent ≤ 971 ∧
      (mantissa < fractionRange → exponent = -1074) :=
  canonical

instance (mantissa : Nat) (exponent : Int) : Decidable (Binary64.Canonical mantissa exponent) := by
  unfold Binary64.Canonical; infer_instance

/-- A double precision number.  All not-a-numbers are one value; the two zeros are two values. -/
inductive Binary64
  /-- The result of an undefined operation. -/
  | nan
  /-- A number beyond every finite one. -/
  | infinite (negative : Bool)
  /-- The number `± mantissa · 2 ^ exponent`. -/
  | finite (negative : Bool) (mantissa : Nat) (exponent : Int)
      (canonical : Binary64.Canonical mantissa exponent)
deriving DecidableEq

namespace Binary64

/-- The zero of a sign. -/
def zero (negative : Bool) : Binary64 :=
  .finite negative 0 (-1074) (by decide)

instance : Inhabited Binary64 := ⟨zero false⟩

/-- The number one. -/
def one : Binary64 :=
  .finite false fractionRange (-52) (by decide)

/-- Whether the number is neither infinite nor not-a-number. -/
def isFinite : Binary64 → Bool
  | .finite .. => true
  | _ => false

/-! ## Values as multiples of the smallest positive number -/

/-- How many multiples of `2 ^ -1074` the number `± mantissa · 2 ^ exponent` is. -/
def unitsOf (negative : Bool) (mantissa : Nat) (exponent : Int) : Int :=
  let size : Int := (mantissa <<< (exponent + 1074).toNat : Nat)
  if negative then -size else size

/-- The value of a finite number, in multiples of `2 ^ -1074`. -/
def units? : Binary64 → Option Int
  | .finite negative mantissa exponent _ => some (unitsOf negative mantissa exponent)
  | _ => none

/-! ## Comparison -/

/-- Numeric equality: the two zeros are equal, and not-a-number equals nothing. -/
def equals : Binary64 → Binary64 → Bool
  | .infinite left, .infinite right => left == right
  | .finite leftSign left leftExponent _, .finite rightSign right rightExponent _ =>
    unitsOf leftSign left leftExponent == unitsOf rightSign right rightExponent
  | _, _ => false

/-- Numeric order: not-a-number is not related to anything. -/
def atMost : Binary64 → Binary64 → Bool
  | .nan, _ | _, .nan => false
  | .infinite true, _ => true
  | _, .infinite false => true
  | .infinite false, _ => false
  | _, .infinite true => false
  | .finite leftSign left leftExponent _, .finite rightSign right rightExponent _ =>
    unitsOf leftSign left leftExponent ≤ unitsOf rightSign right rightExponent

/-- Whether the number is one of the two zeros. -/
def isZero (x : Binary64) : Bool :=
  x.equals (zero false)

/-- The number without its sign. -/
def abs : Binary64 → Binary64
  | .nan => .nan
  | .infinite _ => .infinite false
  | .finite _ mantissa exponent canonical => .finite false mantissa exponent canonical

/-- A number equals itself exactly when it is not not-a-number. -/
theorem equals_self_iff (x : Binary64) : x.equals x = true ↔ x ≠ .nan := by
  cases x <;> simp [equals]

/-! ## The integer part -/

/-- The number rounded toward zero, as an integer; an infinity and not-a-number have none. -/
def truncate? : Binary64 → Option Int
  | .finite negative mantissa exponent _ =>
    let size : Int := (mantissa <<< exponent.toNat >>> (-exponent).toNat : Nat)
    some (if negative then -size else size)
  | _ => none

/-- Scaling up by a power of two before a division and down after it changes nothing. -/
theorem scaled_quotient (mantissa : Nat) {exponent : Int} {bias : Nat} (low : -bias ≤ exponent) :
    mantissa <<< exponent.toNat >>> (-exponent).toNat =
      mantissa <<< (exponent + bias).toNat / 1 <<< bias := by
  simp only [Nat.shiftLeft_eq, Nat.shiftRight_eq_div_pow, Nat.one_mul]
  by_cases large : 0 ≤ exponent
  · have up : (exponent + bias).toNat = exponent.toNat + bias := by omega
    have down : (-exponent).toNat = 0 := by omega
    rw [up, down, Nat.pow_add, ← Nat.mul_assoc, Nat.mul_div_cancel _ (Nat.two_pow_pos _),
      Nat.pow_zero, Nat.div_one]
  · have up : exponent.toNat = 0 := by omega
    obtain ⟨shift, shifted⟩ : ∃ shift, (exponent + bias).toNat = shift := ⟨_, rfl⟩
    obtain rfl : bias = (-exponent).toNat + shift := by omega
    rw [up, shifted, Nat.pow_zero, Nat.mul_one, Nat.pow_add,
      Nat.mul_div_mul_right _ _ (Nat.two_pow_pos shift)]

/-- The integer part is what is left of the exact value when the fraction is dropped. -/
theorem truncate?_eq_units? (x : Binary64) :
    x.truncate? = x.units?.map fun units => units.tdiv (1 <<< 1074 : Nat) := by
  cases x with
  | nan => rfl
  | infinite negative => rfl
  | finite negative mantissa exponent canonical =>
    obtain ⟨_, low, _, _⟩ := canonical.parts
    have size := @scaled_quotient mantissa exponent 1074 low
    simp only [truncate?, units?, unitsOf, Option.map_some, size]
    cases negative
    · rfl
    · simp only [if_true, Int.neg_tdiv]
      rfl

/-! ## Stored words -/

/-- The word with the given sign bit, exponent field and fraction field. -/
def packFields (negative : Bool) (field fraction : Nat) : UInt64 :=
  UInt64.ofNat ((negative.toNat * 2048 + field) * fractionRange + fraction)

/-- The word that stores a number: a sign bit, eleven exponent bits, fifty-two fraction bits. -/
def toBits : Binary64 → UInt64
  | .nan => packFields false 2047 (fractionRange / 2)
  | .infinite negative => packFields negative 2047 0
  | .finite negative mantissa exponent _ =>
    if mantissa < fractionRange then packFields negative 0 mantissa
    else packFields negative (exponent + 1075).toNat (mantissa - fractionRange)

/-- The number with the given sign, exponent field and fraction field. -/
def ofFields (negative : Bool) (field fraction : Nat) : Binary64 :=
  if small : field = 0 ∧ fraction < fractionRange then
    .finite negative fraction (-1074) ⟨by omega, by decide, by decide, fun _ => rfl⟩
  else if large : field ≠ 0 ∧ field < 2047 ∧ fraction < fractionRange then
    .finite negative (fraction + fractionRange) ((field : Int) - 1075)
      ⟨by omega, by omega, by omega, by omega⟩
  else if fraction = 0 then .infinite negative
  else .nan

/-- The number that a word stores. -/
def ofBits (word : UInt64) : Binary64 :=
  let bits := word.toNat
  let fields := bits / fractionRange
  ofFields (2048 ≤ fields) (fields % 2048) (bits % fractionRange)

/-- A packed word is taken apart into the fields it was made of. -/
theorem ofBits_packFields {field fraction : Nat} (negative : Bool) (fieldBound : field < 2048)
    (fractionBound : fraction < fractionRange) :
    ofBits (packFields negative field fraction) = ofFields negative field fraction := by
  have bit := negative.toNat_le
  have word : (packFields negative field fraction).toNat =
      (negative.toNat * 2048 + field) * fractionRange + fraction := by
    rw [packFields, UInt64.toNat_ofNat', Nat.mod_eq_of_lt]
    simp only [fractionRange] at *
    omega
  have fields : ((negative.toNat * 2048 + field) * fractionRange + fraction) / fractionRange =
      negative.toNat * 2048 + field := by
    rw [Nat.mul_comm, Nat.mul_add_div (by decide), Nat.div_eq_of_lt fractionBound, Nat.add_zero]
  have sign : decide (2048 ≤ negative.toNat * 2048 + field) = negative := by
    cases negative
    · simp; omega
    · simp
  have exponentField : (negative.toNat * 2048 + field) % 2048 = field := by
    omega
  have fractionField :
      ((negative.toNat * 2048 + field) * fractionRange + fraction) % fractionRange = fraction := by
    rw [Nat.mul_add_mod_self_right, Nat.mod_eq_of_lt fractionBound]
  simp only [ofBits, word, fields, sign, exponentField, fractionField]

/-- Decoding the stored word of a number gives the number back. -/
theorem ofBits_toBits (x : Binary64) : ofBits x.toBits = x := by
  cases x with
  | nan => decide
  | infinite negative => cases negative <;> decide
  | finite negative mantissa exponent canonical =>
    obtain ⟨bounded, low, high, least⟩ := canonical.parts
    by_cases small : mantissa < fractionRange
    · obtain rfl := least small
      rw [toBits, if_pos small, ofBits_packFields negative (by decide) small, ofFields,
        dif_pos ⟨rfl, small⟩]
    · rw [toBits, if_neg small, ofBits_packFields negative (by omega) (by omega), ofFields,
        dif_neg (by omega), dif_pos (by omega)]
      congr <;> omega

end Binary64

end NestedData
