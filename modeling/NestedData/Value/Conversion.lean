import NestedData.Binary64.Rounding
import NestedData.Value.Error
import NestedData.Value.Identity

/-!
# Plain data from values

This module takes plain data out of dynamic values.  References are followed; a value of another kind
is refused with a message that names the type of the value as it was given.  A number is accepted for
a double precision number even if it is an integer, nothing else is converted.
-/

namespace NestedData.Value

/-- The fault of a value that is not of the expected kind. -/
def mismatch {α : Type} (value : Value) (expected : Kind) : Except ValueError α :=
  .error (.typeMismatch expected value.typeName)

/-- The truth value. -/
def toBool (value : Value) : Except ValueError Bool :=
  match value.target with
  | .bool truth => .ok truth
  | _ => value.mismatch .bool

/-- The integer. -/
def toInt (value : Value) : Except ValueError Int64 :=
  match value.target with
  | .int number => .ok number
  | _ => value.mismatch .int

/-- The number, an integer being rounded to double precision. -/
def toFloat (value : Value) : Except ValueError Binary64 :=
  match value.target with
  | .float number => .ok number
  | .int number => .ok (.ofInt number.toInt)
  | _ => value.mismatch .float

/-- The text. -/
def toText (value : Value) : Except ValueError String :=
  match value.target with
  | .text content => .ok content
  | _ => value.mismatch .string

/-- The sequence of a list. -/
def toSequence (value : Value) : Except ValueError (Sequence Value) :=
  match value.target with
  | .list sequence => .ok sequence
  | _ => value.mismatch .list

/-- The entries of a map. -/
def toEntries (value : Value) : Except ValueError (Entries Value) :=
  match value.target with
  | .map entries => .ok entries
  | _ => value.mismatch .map

/-- The record. -/
def toRecord (value : Value) : Except ValueError (Record Value) :=
  match value.target with
  | .record aggregate => .ok aggregate
  | _ => value.mismatch .record

end NestedData.Value
