import NestedData.Path.Render
import NestedData.Value.Display

/-!
# Faults of access

This module lists what can go wrong when a path is followed into a value and words the messages about
it.  Either a segment does not fit the value it reaches, or the value it asks for is missing or cannot
be used.

Main results:

- `AccessError.isMisfit_eq_not_isLack`: every fault is of exactly one of the two sorts.
-/

namespace NestedData

/-- Largest length that an assignment grows a list to. -/
def growthLimit : Nat := 1048576

/-- What is done with the places that a path selects. -/
inductive Operation
  /-- Their values are read. -/
  | get
  /-- They are visited one after the other. -/
  | forEach
  /-- A value is assigned to them. -/
  | set
  /-- They are removed or emptied. -/
  | delete
deriving DecidableEq, Repr

/-- The name of an operation in messages. -/
def Operation.name : Operation → String
  | .get => "get"
  | .forEach => "for_each"
  | .set => "set"
  | .delete => "delete"

/-- Why a segment does not fit the value it reaches. -/
inductive Misfit
  /-- Values of the kind have no children. -/
  | noChildren (kind : Kind)
  /-- A slice, or a root mark, reaches a map. -/
  | sliceOfMap
  /-- The field named is hidden. -/
  | hiddenField (name record : String)
  /-- A position or a slice is asked of a record. -/
  | recordNotIndexed (record : String)
  /-- A name is asked of a list. -/
  | listWithoutNames (name : String)
deriving DecidableEq, Repr

/-- The wording of a misfit. -/
def Misfit.message : Misfit → String
  | .noChildren kind => kind.name ++ " values have no children"
  | .sliceOfMap => "slices apply to lists only"
  | .hiddenField name record => "field '" ++ name ++ "' of " ++ record ++ " is not exported"
  | .recordNotIndexed record => "record " ++ record ++ " cannot be indexed"
  | .listWithoutNames name => "lists have no key '" ++ name ++ "'"

/-- Why a value is missing or cannot be used. -/
inductive Lack
  /-- There is no value to select from. -/
  | nothingThere
  /-- A map has no entry under the key. -/
  | noEntry (key : String)
  /-- A record has no field of the name. -/
  | noField (record name : String)
  /-- A position lies beyond every length that a list is grown to. -/
  | beyondGrowth (position : Nat)
  /-- A position lies beyond the end of a list. -/
  | outOfRange (position length : Nat)
  /-- A path that was read selects nothing. -/
  | nothingFound
  /-- A path that was to be changed selects nothing. -/
  | nothingMatched
  /-- The field may not be written. -/
  | readOnly (name : String)
deriving DecidableEq, Repr

/-- The wording of a lack. -/
def Lack.message : Lack → String
  | .nothingThere => "no value to select from"
  | .noEntry key => "key '" ++ key ++ "' not found"
  | .noField record name => record ++ " has no field '" ++ name ++ "'"
  | .beyondGrowth position =>
    "index " ++ Text.ofNat position ++ " exceeds the maximum list length " ++
      Text.ofNat growthLimit
  | .outOfRange position length =>
    "index " ++ Text.ofNat position ++ " out of range for length " ++ Text.ofNat length
  | .nothingFound => "no value found"
  | .nothingMatched => "path matched nothing"
  | .readOnly name => "field '" ++ name ++ "' is read-only"

/-- What stands in the way of following a path. -/
inductive Obstacle
  /-- A segment does not fit the value it reaches. -/
  | misfit (segment : Segment) (why : Misfit)
  /-- A value is missing or cannot be used. -/
  | lack (why : Lack)
deriving DecidableEq, Repr

/-- A path that cannot be followed. -/
structure AccessError where
  /-- What was to be done. -/
  operation : Operation
  /-- The path up to the obstacle. -/
  path : Path
  /-- The value found there. -/
  value : Value
  /-- What stands in the way. -/
  obstacle : Obstacle

namespace AccessError

/-- The message about the fault. -/
def message (error : AccessError) : String :=
  match error.obstacle with
  | .misfit segment why =>
    error.operation.name ++ ": segment '" ++ segment.display ++ "' is invalid at '" ++
      error.path.render ++ "' for " ++ error.value.snapshot ++ ": " ++ why.message
  | .lack why =>
    error.operation.name ++ ": value at '" ++ error.path.render ++ "' is invalid (" ++
      error.value.snapshot ++ "): " ++ why.message

/-- Whether a segment does not fit the value it reaches. -/
def isMisfit (error : AccessError) : Bool :=
  match error.obstacle with
  | .misfit .. => true
  | .lack _ => false

/-- Whether a value is missing or cannot be used. -/
def isLack (error : AccessError) : Bool :=
  match error.obstacle with
  | .misfit .. => false
  | .lack _ => true

/-- Every fault is of exactly one of the two sorts. -/
theorem isMisfit_eq_not_isLack (error : AccessError) : error.isMisfit = !error.isLack := by
  unfold isMisfit isLack
  cases error.obstacle <;> rfl

end AccessError

end NestedData
