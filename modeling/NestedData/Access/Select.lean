import NestedData.Access.Error
import NestedData.Location
import NestedData.Path.Slice

/-!
# Selecting children

This module says which children of a value one segment selects.  The same rules serve reading, visiting,
assigning and deleting.  A name or position that selects nothing is a fault as long as nothing before
it could select several places, and is passed over otherwise.  A hidden field that is named is a fault
in any case, unless the segment is being searched for.

Main results:

- `Selection.miss_of_lenient`: when misses are passed over, a miss selects nothing.
-/

namespace NestedData

/-- The circumstances under which a segment selects. -/
structure Selection where
  /-- What is being done. -/
  operation : Operation
  /-- The place of the value selected from. -/
  location : Location
  /-- Whether a miss is a fault. -/
  strict : Bool
  /-- Whether missing entries, and positions beyond the end of a growable list, are selected too. -/
  create : Bool
  /-- Whether the segment is being searched for. -/
  searching : Bool

namespace Selection

/-- The fault of an obstacle met at the place of the selection. -/
def fault (selection : Selection) (value : Value) (obstacle : Obstacle) : AccessError :=
  { operation := selection.operation, path := selection.location.toPath, value, obstacle }

/-- A miss: a fault or passed over. -/
def miss (selection : Selection) (value : Value) (obstacle : Obstacle) :
    Except AccessError (List Step) :=
  if selection.strict then .error (selection.fault value obstacle) else .ok []

/-- When misses are passed over, a miss selects nothing. -/
theorem miss_of_lenient {selection : Selection} (lenient : selection.strict = false)
    (value : Value) (obstacle : Obstacle) : selection.miss value obstacle = .ok [] := by
  simp [miss, lenient]

/-! ## Maps -/

/-- Selects the entry under a key. -/
def selectEntry (selection : Selection) (entries : Entries Value) (key : String) :
    Except AccessError (List Step) :=
  if selection.create || Entries.contains entries key then .ok [.key key]
  else selection.miss (.map entries) (.lack (.noEntry key))

/-- The key of a union entry; a position is a key in decimal. -/
def keyOf : Selector → String
  | .key name => name
  | .index position => Text.ofNat position

/-- Selects entries of a map. -/
def selectInMap (selection : Selection) (entries : Entries Value) (segment : Segment) :
    Except AccessError (List Step) :=
  match segment with
  | .key name => selection.selectEntry entries name
  | .index position => selection.selectEntry entries (Text.ofNat position)
  | .wildcard => .ok ((Entries.keys entries).map .key)
  | .union selectors =>
    .ok (((selectors.map keyOf).filter fun key =>
      selection.create || Entries.contains entries key).map .key)
  | .slice .. | .root => selection.miss (.map entries) (.misfit segment .sliceOfMap)

/-! ## Records -/

/-- The field that a union entry names, if paths see it. -/
def fieldOf? (aggregate : Record Value) : Selector → Option Step
  | .key name => (aggregate.get? name).map fun _ => .key name
  | .index _ => none

/-- Selects fields of a record. -/
def selectInRecord (selection : Selection) (aggregate : Record Value) (segment : Segment) :
    Except AccessError (List Step) :=
  let value := Value.record aggregate
  match segment with
  | .key name =>
    match aggregate.field? name with
    | some field =>
      if field.exported then .ok [.key name]
      else if selection.searching then .ok []
      else .error (selection.fault value (.misfit segment (.hiddenField name aggregate.name)))
    | none => selection.miss value (.lack (.noField aggregate.name name))
  | .wildcard => .ok (aggregate.exportedFields.map fun field => .key field.name)
  | .union selectors => .ok (selectors.filterMap (fieldOf? aggregate))
  | .index _ | .slice .. | .root =>
    selection.miss value (.misfit segment (.recordNotIndexed aggregate.name))

/-! ## Lists -/

/-- Whether the selection may add elements to a sequence. -/
def mayGrow (selection : Selection) (sequence : Sequence Value) : Bool :=
  selection.create && sequence.canGrow

/-- Whether a position exists in a sequence or may be added to it. -/
def reaches (selection : Selection) (sequence : Sequence Value) (position : Nat) : Bool :=
  position < sequence.size || (selection.mayGrow sequence && position < growthLimit)

/-- The position that a union entry names, if it can be reached. -/
def positionOf? (selection : Selection) (sequence : Sequence Value) : Selector → Option Step
  | .index position => if selection.reaches sequence position then some (.index position) else none
  | .key _ => none

/-- The length that the bounds of a slice are resolved against: a stop beyond the end of a sequence
that may grow counts, up to the limit. -/
def sliceLength (selection : Selection) (sequence : Sequence Value) (stop : Option Int64) : Nat :=
  match stop with
  | some stop =>
    if selection.mayGrow sequence && sequence.size < stop.toInt then
      min stop.toInt.toNat growthLimit
    else sequence.size
  | none => sequence.size

/-- Selects elements of a list. -/
def selectInList (selection : Selection) (sequence : Sequence Value) (segment : Segment) :
    Except AccessError (List Step) :=
  let value := Value.list sequence
  match segment with
  | .index position =>
    if selection.reaches sequence position then .ok [.index position]
    else if selection.mayGrow sequence then
      selection.miss value (.lack (.beyondGrowth position))
    else selection.miss value (.lack (.outOfRange position sequence.size))
  | .wildcard => .ok ((List.range sequence.size).map .index)
  | .union selectors => .ok (selectors.filterMap (selection.positionOf? sequence))
  | .slice start stop step =>
    .ok (((sliceIndices start stop step (selection.sliceLength sequence stop)).filter
      (selection.reaches sequence)).map .index)
  | .key name => selection.miss value (.misfit segment (.listWithoutNames name))
  | .root => .ok []

/-! ## Any value -/

/-- The steps to the children that a segment selects from a value at the end of its references. -/
def select (selection : Selection) (value : Value) (segment : Segment) :
    Except AccessError (List Step) :=
  match value with
  | .map entries => selection.selectInMap entries segment
  | .record aggregate => selection.selectInRecord aggregate segment
  | .list sequence => selection.selectInList sequence segment
  | .null | .nilRef => selection.miss value (.lack .nothingThere)
  | value => selection.miss value (.misfit segment (.noChildren value.kind))

end Selection

end NestedData
