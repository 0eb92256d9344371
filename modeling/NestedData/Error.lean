import NestedData.Access.Error
import NestedData.Path.Error
import NestedData.Schema.Error
import NestedData.Value.Error

/-!
# Faults

This module joins the faults of values, paths, access and schemas, so that whoever uses several of them
can ask the same questions of each: what was to be done, where it failed, and what sort of fault it is.

Main results:

- `Error.path?_eq_none_iff`: only a fault of a single value has no place.
-/

namespace NestedData

/-- Anything that can go wrong. -/
inductive Error
  /-- A fault of a single value. -/
  | value (fault : ValueError)
  /-- A text that is no path. -/
  | path (fault : PathError)
  /-- A path that cannot be followed into a value. -/
  | access (fault : AccessError)
  /-- A value that does not fit a schema. -/
  | schema (fault : SchemaError)

namespace Error

/-- The message about the fault. -/
def message : Error → String
  | .value fault => fault.message
  | .path fault => fault.message
  | .access fault => fault.message
  | .schema fault => fault.message

/-- The name of what was to be done. -/
def operation? : Error → Option String
  | .value _ => none
  | .path _ => some "parse"
  | .access fault => some fault.operation.name
  | .schema fault => some fault.operation.name

/-- The place of the fault, or the text that is no path. -/
def path? : Error → Option String
  | .value _ => none
  | .path fault => some fault.path
  | .access fault => some fault.path.render
  | .schema fault => some fault.path.render

/-- Whether there is nothing at the place. -/
def isNotFound : Error → Bool
  | .access fault => fault.isLack
  | .schema fault => fault.isLookupError
  | _ => false

/-- Whether a segment is malformed or does not apply. -/
def isInvalidSegment : Error → Bool
  | .path _ => true
  | .access fault => fault.isMisfit
  | _ => false

/-- Whether a value could not be converted. -/
def isConversionError : Error → Bool
  | .schema fault => fault.isConversionError
  | _ => false

/-- Whether a value is not valid. -/
def isValidationError : Error → Bool
  | .schema fault => fault.isValidationError
  | _ => false

/-- Whether a text could not be decoded. -/
def isDecodingError : Error → Bool
  | .value fault => fault.isDecodingError
  | .schema fault => fault.isDecodingError
  | _ => false

/-- Whether a value is of another kind than was asked for. -/
def isTypeError : Error → Bool
  | .value fault => fault.isTypeError
  | _ => false

/-- Only a fault of a single value has no place. -/
theorem path?_eq_none_iff (error : Error) :
    error.path? = none ↔ ∃ fault, error = .value fault := by
  cases error <;> simp [path?]

end Error

end NestedData
