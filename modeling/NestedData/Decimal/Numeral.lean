import NestedData.Binary64.Rounding
import NestedData.Text.Integer

/-!
# Decimal numerals

This module takes the text of a decimal number apart into sign, whole digits, fraction digits and
exponent, and gives the double precision number nearest to it.  The scanner is shared by every
reader of numbers; which of the scanned forms a format admits is decided by the format.

Main results:

- `takeDigits_append`: splitting off the leading digits loses nothing.
- `ofDecimal_zero`: a numeral whose digits are all zero is a zero of its sign.
-/

namespace NestedData

/-- The parts of a decimal number as they are written. -/
structure Numeral where
  /-- The written sign: `some true` for minus, `some false` for plus, `none` for no sign. -/
  sign : Option Bool
  /-- The digits before the decimal point. -/
  whole : List Char
  /-- The digits after the decimal point, if there is a point. -/
  fraction : Option (List Char)
  /-- The power of ten, if one is written. -/
  exponent : Option Int

namespace Numeral

/-! ## Scanning -/

/-- Splits off the leading ASCII digits. -/
def takeDigits (text : List Char) : List Char × List Char :=
  (text.takeWhile Char.isDigit, text.dropWhile Char.isDigit)

/-- Splitting off the leading digits loses nothing. -/
theorem takeDigits_append (text : List Char) :
    (takeDigits text).1 ++ (takeDigits text).2 = text :=
  List.takeWhile_append_dropWhile

/-- Splits off a leading sign. -/
def takeSign : List Char → Option Bool × List Char
  | '-' :: rest => (some true, rest)
  | '+' :: rest => (some false, rest)
  | text => (none, text)

/-- Splits off a leading decimal point and the digits after it. -/
def takeFraction : List Char → Option (List Char) × List Char
  | '.' :: rest => (some (takeDigits rest).1, (takeDigits rest).2)
  | text => (none, text)

/-- Reads an exponent that takes up the whole text; the empty text is the absent exponent. -/
def readExponent? : List Char → Option (Option Int)
  | [] => some none
  | mark :: rest =>
    if mark = 'e' ∨ mark = 'E' then (Text.readInt? rest).map some else none

/-- Takes a number apart.  Any of the two digit sequences may be empty; what follows them must be
an exponent or nothing. -/
def scan? (text : List Char) : Option Numeral :=
  let (sign, unsigned) := takeSign text
  let (whole, afterWhole) := takeDigits unsigned
  let (fraction, afterFraction) := takeFraction afterWhole
  (readExponent? afterFraction).map fun exponent => { sign, whole, fraction, exponent }

/-! ## The number a numeral denotes -/

/-- All digits of the numeral, in order. -/
def digits (numeral : Numeral) : List Char :=
  numeral.whole ++ numeral.fraction.getD []

/-- Whether the numeral carries a minus sign. -/
def isNegative (numeral : Numeral) : Bool :=
  numeral.sign == some true

/-- The power of ten that scales the digits read as one whole number. -/
def scale (numeral : Numeral) : Int :=
  numeral.exponent.getD 0 - (numeral.fraction.getD []).length

end Numeral

namespace Binary64

/-- The number of decimal digits of a natural number. -/
def decimalLength (n : Nat) : Nat :=
  (Nat.toDigits 10 n).length

/-- The number nearest to `± digits · 10 ^ scale`.  Numbers of more than 310 whole digits are beyond
the range, and numbers whose first digit comes after the 330th place are below half of the
smallest positive one, so neither needs its power of ten. -/
def ofDecimal (negative : Bool) (digits : Nat) (scale : Int) : Binary64 :=
  let magnitude : Int := decimalLength digits + scale
  if digits = 0 then zero negative
  else if 310 < magnitude then .infinite negative
  else if magnitude < -330 then zero negative
  else ofRatio negative (digits * Nat.pow 10 scale.toNat) (Nat.pow 10 (-scale).toNat)

/-- A numeral whose digits are all zero is a zero of its sign. -/
@[simp]
theorem ofDecimal_zero (negative : Bool) (scale : Int) :
    ofDecimal negative 0 scale = zero negative := by
  simp [ofDecimal]

/-- The number nearest to the one a numeral denotes. -/
def ofNumeral (numeral : Numeral) : Binary64 :=
  ofDecimal numeral.isNegative (Nat.ofDigitChars 10 numeral.digits 0) numeral.scale

/-- Reads a number: an optional sign, then a word for an infinity or for not-a-number in any letter
case, or at least one digit with an optional point and an optional exponent. -/
def read? (text : List Char) : Option Binary64 :=
  let (sign, unsigned) := Numeral.takeSign text
  let word := unsigned.map Char.toLower
  if word = "inf".toList ∨ word = "infinity".toList then some (.infinite (sign == some true))
  else if word = "nan".toList then some .nan
  else
    match Numeral.scan? text with
    | some numeral => if numeral.digits = [] then none else some (ofNumeral numeral)
    | none => none

end Binary64

end NestedData
