import NestedData.Path.Render
import NestedData.Schema.Description
import NestedData.Value.Display

/-!
# Faults of schemas

This module lists what can go wrong when a value is converted to a schema or checked against it, or when
a path is followed into a schema, and words the messages about it.

Main results:

- `SchemaError.operation_eq_lookup_iff`: only a look-up finds no schema.
-/

namespace NestedData

/-- What is done with a schema. -/
inductive SchemaOperation
  /-- A value is converted to it. -/
  | convert
  /-- A value is checked against it. -/
  | validate
  /-- A path is followed into it. -/
  | lookup
deriving DecidableEq, Repr

/-- The name of an operation in messages. -/
def SchemaOperation.name : SchemaOperation → String
  | .convert => "convert"
  | .validate => "validate"
  | .lookup => "schema_at_path"

/-- Why a value cannot be converted. -/
inductive Unconvertible
  /-- The value is none that a scalar of the kind is made from. -/
  | notScalar (kind : Kind)
  /-- The value is none that a container of the kind is made from. -/
  | notContainer (kind : Kind)
  /-- A text stands for a text and not for a container. -/
  | textInText
  /-- A record is converted to an alternative that does not declare one of its fields. -/
  | unknownField (name : String)
  /-- A map is converted to an alternative that does not declare one of its keys. -/
  | unknownKey (key : String)
  /-- The default of a record is no record. -/
  | defaultNoRecord
  /-- A list has more elements than fit. -/
  | tooLong (size length : Nat)
  /-- No alternative of a union accepts the value. -/
  | noAlternative
  /-- No alternative of a union accepts the value of an entry. -/
  | noEntryAlternative
deriving DecidableEq, Repr

/-- The wording of the reason. -/
def Unconvertible.message : Unconvertible → String
  | .notScalar kind => "not convertible to " ++ kind.name
  | .notContainer .record => "expected a record, a map or a string"
  | .notContainer .map => "expected a map, a record or a string"
  | .notContainer _ => "expected a list or a string"
  | .textInText => "string does not encode a container"
  | .unknownField name => "unknown field '" ++ name ++ "'"
  | .unknownKey key => "unknown key '" ++ key ++ "'"
  | .defaultNoRecord => "default value is not a record"
  | .tooLong size length =>
    Text.ofNat size ++ " elements do not fit in length " ++ Text.ofNat length
  | .noAlternative => "no alternative accepts the value"
  | .noEntryAlternative => "no alternative accepts the entry"

/-- Why a value is not valid. -/
inductive Violation
  /-- The value is of another kind. -/
  | otherKind (expected found : Kind)
  /-- The record is of another type. -/
  | otherRecord (expected found : String)
  /-- A field of the record is not declared. -/
  | undeclaredField (name : String)
  /-- A declared field is missing. -/
  | missingField (name : String)
  /-- A key of the map is not declared. -/
  | undeclaredKey (key : String)
  /-- The array has another length. -/
  | otherLength (expected found : Nat)
  /-- No alternative of a union describes the value. -/
  | noAlternative
deriving DecidableEq, Repr

/-- The wording of the reason. -/
def Violation.message : Violation → String
  | .otherKind expected found => "expected " ++ expected.name ++ ", found " ++ found.name
  | .otherRecord expected found => "expected record " ++ expected ++ ", found " ++ found
  | .undeclaredField name => "undeclared field '" ++ name ++ "'"
  | .missingField name => "missing field '" ++ name ++ "'"
  | .undeclaredKey key => "undeclared key '" ++ key ++ "'"
  | .otherLength expected found =>
    "expected length " ++ Text.ofNat expected ++ ", found " ++ Text.ofNat found
  | .noAlternative => "no alternative matches"

/-- Why a path leads to no node of a schema. -/
inductive Absence
  /-- The path contains a search. -/
  | search
  /-- The segment may select several children. -/
  | several (segment : Segment)
  /-- The map has no schema for the key. -/
  | noEntry (key : String)
  /-- The record does not declare the field. -/
  | noField (name : String)
  /-- The position lies beyond the length of the array. -/
  | beyondLength (position length : Nat)
  /-- Values of the kind have no children that the segment could select. -/
  | inapplicable (segment : Segment) (kind : Kind)
  /-- The union has no alternatives. -/
  | emptyUnion
deriving DecidableEq, Repr

/-- The wording of the reason. -/
def Absence.message : Absence → String
  | .search => "recursive descent is not an absolute path"
  | .several segment =>
    "'" ++ segment.display ++ "' selects several locations; an absolute path is required"
  | .noEntry key => "no entry schema for key '" ++ key ++ "'"
  | .noField name => "no field '" ++ name ++ "'"
  | .beyondLength position length =>
    "index " ++ Text.ofNat position ++ " beyond array length " ++ Text.ofNat length
  | .inapplicable segment kind => "'" ++ segment.display ++ "' does not apply to " ++ kind.name
  | .emptyUnion => "union has no alternatives"

/-- What is wrong between a value and a schema. -/
inductive SchemaFault
  /-- The value cannot be converted. -/
  | unconvertible (value : Value) (why : Unconvertible)
  /-- The node's own converter refuses the value. -/
  | converterRefused (why : String)
  /-- The value is a text that is no document. -/
  | undecodable (value : Value) (detail : String)
  /-- The value is not valid. -/
  | invalid (value : Value) (why : Violation)
  /-- The node's own validator refuses the value. -/
  | validatorRefused (value : Value) (why : String)
  /-- The path leads to no node. -/
  | absent (why : Absence)

/-- A value that does not fit a schema, or a path that leads out of it. -/
structure SchemaError where
  /-- The place of the fault. -/
  path : Path
  /-- The schema that does not fit. -/
  schema : Schema
  /-- What is wrong. -/
  fault : SchemaFault

namespace SchemaError

/-- What was to be done. -/
def operation (error : SchemaError) : SchemaOperation :=
  match error.fault with
  | .unconvertible .. | .converterRefused _ | .undecodable .. => .convert
  | .invalid .. | .validatorRefused .. => .validate
  | .absent _ => .lookup

/-- The message about the fault. -/
def message (error : SchemaError) : String :=
  let place := " at '" ++ error.path.render ++ "': "
  let schema := error.schema.describe
  error.operation.name ++ ": " ++
    match error.fault with
    | .unconvertible value why =>
      "cannot convert " ++ value.snapshot ++ " to " ++ schema ++ place ++ why.message
    | .converterRefused why => "custom converter for " ++ schema ++ " failed" ++ place ++ why
    | .undecodable value detail => "cannot decode " ++ value.snapshot ++ place ++ detail
    | .invalid value why =>
      value.snapshot ++ " does not match " ++ schema ++ place ++ why.message
    | .validatorRefused value why =>
      "custom validator for " ++ schema ++ " rejected " ++ value.snapshot ++ place ++ why
    | .absent why =>
      "no schema at '" ++ error.path.render ++ "' in " ++ schema ++ ": " ++ why.message

/-- Whether a value could not be converted, by the rules for the shape or by the node's own. -/
def isConversionError (error : SchemaError) : Bool :=
  match error.fault with
  | .unconvertible .. | .converterRefused _ => true
  | _ => false

/-- Whether a value is not valid, by the rules for the shape or by the node's own. -/
def isValidationError (error : SchemaError) : Bool :=
  error.operation = .validate

/-- Whether the fault lies in a text that was to be decoded. -/
def isDecodingError (error : SchemaError) : Bool :=
  match error.fault with
  | .undecodable .. => true
  | _ => false

/-- Whether a path leads to no node. -/
def isLookupError (error : SchemaError) : Bool :=
  error.operation = .lookup

/-- Only a look-up finds no schema. -/
theorem operation_eq_lookup_iff (error : SchemaError) :
    error.operation = .lookup ↔ ∃ why, error.fault = .absent why := by
  unfold operation
  cases error.fault <;> simp

end SchemaError

end NestedData
