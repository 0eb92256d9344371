import NestedData.Decimal.Shortest

/-!
# Layouts of decimal numbers

This module writes the digits of a decimal number down.  A layout says which numbers are written
positionally and which with an exponent, whether a whole number keeps a decimal point, and what is
done with a number midway between two shortest decimals.

Main results:

- `Layout.plain`: the layout of numbers inside running text.
-/

namespace NestedData

/-- How numbers are written. -/
structure Layout where
  /-- What is done with a number midway between two shortest decimals. -/
  tie : Tie
  /-- Whether a number with the given power of ten at its first digit is written positionally. -/
  isPositional : Int → Bool
  /-- Whether a whole number written positionally ends in a point and a zero. -/
  keepsPoint : Bool

namespace Layout

/-- Numbers inside running text: always positional, whole numbers without a point. -/
def plain : Layout where
  tie := .upward
  isPositional := fun _ => true
  keepsPoint := false

/-- A fraction part, with its point, if there is one or the layout keeps the point. -/
def fractionPart (layout : Layout) : List Char → List Char
  | [] => if layout.keepsPoint then ['.', '0'] else []
  | fraction => '.' :: fraction

/-- The digits scaled by `10 ^ exponent`, without an exponent. -/
def positional (layout : Layout) (digits : List Char) (exponent : Int) : List Char :=
  let places := (-exponent).toNat
  if 0 ≤ exponent then
    digits ++ List.replicate exponent.toNat '0' ++ layout.fractionPart []
  else if places < digits.length then
    digits.take (digits.length - places) ++
      layout.fractionPart (digits.drop (digits.length - places))
  else
    '0' :: layout.fractionPart (List.replicate (places - digits.length) '0' ++ digits)

/-- The digits with one before the point, and the power of ten of that one. -/
def scientific (digits : List Char) (leading : Int) : List Char :=
  let sign := if leading < 0 then '-' else '+'
  let power := sign :: Text.showNat leading.natAbs
  match digits with
  | [] => 'e' :: power
  | [digit] => digit :: 'e' :: power
  | digit :: fraction => digit :: '.' :: fraction ++ 'e' :: power

/-- A decimal number in the layout, with a minus sign if it is negative. -/
def write (layout : Layout) (negative : Bool) (decimal : Decimal) : List Char :=
  let digits := Text.showNat decimal.digits
  let leading : Int := decimal.exponent + digits.length - 1
  let unsigned :=
    if layout.isPositional leading then layout.positional digits decimal.exponent
    else scientific digits leading
  if negative then '-' :: unsigned else unsigned

/-- The shortest text of a finite number in the layout. -/
def writeFinite (layout : Layout) (negative : Bool) (mantissa : Nat) (exponent : Int)
    (canonical : Binary64.Canonical mantissa exponent) : List Char :=
  layout.write negative (Decimal.ofFinite layout.tie mantissa exponent canonical)

end Layout

/-- The text of a number inside running text, with words for the numbers that have no digits. -/
def Binary64.display : Binary64 → List Char
  | .nan => "NaN".toList
  | .infinite false => "inf".toList
  | .infinite true => "-inf".toList
  | .finite negative mantissa exponent canonical =>
    Layout.plain.writeFinite negative mantissa exponent canonical

end NestedData
