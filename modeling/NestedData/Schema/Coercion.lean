import NestedData.Binary64.Rounding
import NestedData.Schema.Basic
import NestedData.Text.Blank
import NestedData.Value.Display

/-!
# Coercion of scalars

This module makes scalars of one kind into scalars of another.  Truth values and numbers stand for each
other, a text for what it spells once blanks around it are dropped, and every scalar has a text.
Numbers become integers by dropping the fraction.  What is no scalar is not coerced.

Main results:

- `coerce?_of_kind`: a scalar of the expected kind is left as it is.
- `nearInt64?_of_lt`: an integer of the signed 64-bit range is left as it is.
-/

namespace NestedData

/-- The 64-bit form of an integer of the signed range.  The integer just above the range stands for the
greatest one in it: that is where the bound lies in double precision. -/
def nearInt64? (n : Int) : Option Int64 :=
  if -0x8000000000000000 ≤ n ∧ n ≤ 0x8000000000000000 then
    some (Int64.ofInt (min n 0x7fffffffffffffff))
  else none

/-- An integer of the signed 64-bit range is left as it is. -/
theorem nearInt64?_of_lt {n : Int} (low : -0x8000000000000000 ≤ n)
    (high : n < 0x8000000000000000) :
    nearInt64? n = some (Int64.ofInt n) := by
  rw [nearInt64?, if_pos ⟨low, by omega⟩, Int.min_eq_left (by omega)]

namespace Value

/-- The truth value that a scalar stands for: a number that is not zero is true. -/
def coerceBool? : Value → Option Bool
  | .bool truth => some truth
  | .int number => some (number != 0)
  | .float number => some !number.isZero
  | .text content =>
    let spelling := Text.trim content.toList
    (Text.readBool? spelling).or ((Binary64.read? spelling).map fun number => !number.isZero)
  | _ => none

/-- The integer that a scalar stands for. -/
def coerceInt? : Value → Option Int64
  | .int number => some number
  | .float number => number.truncate?.bind nearInt64?
  | .bool truth => some (if truth then 1 else 0)
  | .text content =>
    let spelling := Text.trim content.toList
    (Text.readInt64? spelling).or
      ((Binary64.read? spelling).bind fun number => number.truncate?.bind nearInt64?)
  | _ => none

/-- The double precision number that a scalar stands for. -/
def coerceFloat? : Value → Option Binary64
  | .float number => some number
  | .int number => some (.ofInt number.toInt)
  | .bool truth => some (if truth then .one else .zero false)
  | .text content => Binary64.read? (Text.trim content.toList)
  | _ => none

/-- The text of a scalar. -/
def coerceText? : Value → Option String
  | .text content => some content
  | .int number => some (Text.ofInt number.toInt)
  | .float number => some (String.ofList number.display)
  | .bool truth => some (Text.ofBool truth)
  | _ => none

/-- The scalar of a kind that a value stands for. -/
def coerce? (kind : Kind) (value : Value) : Option Value :=
  match kind with
  | .bool => value.coerceBool?.map .bool
  | .int => value.coerceInt?.map .int
  | .float => value.coerceFloat?.map .float
  | .string => value.coerceText?.map .text
  | _ => none

theorem kind_of_coerce? {kind : Kind} {value scalar : Value}
    (coerced : value.coerce? kind = some scalar) : scalar.kind = kind := by
  unfold coerce? at coerced
  split at coerced <;> first
    | (obtain ⟨_, _, rfl⟩ := Option.map_eq_some_iff.1 coerced; rfl)
    | simp at coerced

/-- A scalar of the expected kind is left as it is. -/
theorem coerce?_of_kind {value : Value} (scalar : value.kind.isScalar = true) :
    value.coerce? value.kind = some value := by
  cases value with
  | list sequence =>
    obtain ⟨extent, items⟩ := sequence
    cases extent <;> simp [kind, Kind.isScalar] at scalar
  | bool | int | float | text => rfl
  | _ => simp [kind, Kind.isScalar] at scalar

end Value

end NestedData
