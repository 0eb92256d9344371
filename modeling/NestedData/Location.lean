import NestedData.Path.Basic
import NestedData.Value.Basic

/-!
# Locations

This module names the places inside a value.  A location is the row of steps that leads to it from
the root, where every step goes from a container to one of its children.  Hidden fields of records are
not children.  References are followed before a step is taken, so they need no steps of their own.

Main results:

- `sizeOf_child_lt`: a child is smaller than its container.
- `child?_setChild_index`, `child?_setChild_key`: a child that has been replaced is found again.
-/

namespace NestedData

/-- A step from a container to one of its children. -/
inductive Step
  /-- To the entry or field of a name. -/
  | key (name : String)
  /-- To the element at a position. -/
  | index (position : Nat)
deriving DecidableEq, Repr

/-- The segment that takes the step. -/
def Step.segment : Step → Segment
  | .key name => .key name
  | .index position => .index position

/-- The steps from the root to a place. -/
abbrev Location := List Step

namespace Location

/-- The place of a child. -/
def child (location : Location) (step : Step) : Location :=
  location ++ [step]

/-- The path that leads to a place and nowhere else. -/
def toPath (location : Location) : Path :=
  { first := .root :: location.map Step.segment }

end Location

namespace Value

/-! ## Children -/

/-- The children of a container with the steps that lead to them, in order. -/
def children : Value → List (Step × Value)
  | .list sequence => sequence.items.toList.zipIdx.map fun (item, position) => (.index position, item)
  | .map entries => entries.map fun entry => (.key entry.1, entry.2)
  | .record aggregate =>
    aggregate.exportedFields.map fun field => (.key field.name, field.value)
  | _ => []

/-- A child is smaller than its container. -/
theorem sizeOf_child_lt {value : Value} {child : Step × Value} (mem : child ∈ value.children) :
    sizeOf child.2 < sizeOf value := by
  cases value with
  | list sequence =>
    obtain ⟨⟨item, position⟩, found, rfl⟩ := List.mem_map.1 mem
    exact sizeOf_item_lt (Array.mem_toList_iff.1 (List.fst_mem_of_mem_zipIdx found))
  | map entries =>
    obtain ⟨entry, found, rfl⟩ := List.mem_map.1 mem
    exact sizeOf_entry_lt found
  | record aggregate =>
    obtain ⟨field, found, rfl⟩ := List.mem_map.1 mem
    exact sizeOf_field_lt (List.mem_filter.1 found).1
  | _ => simp [children] at mem

/-- The child that a step leads to. -/
def child? : Value → Step → Option Value
  | .map entries, .key name => Entries.get? entries name
  | .record aggregate, .key name => aggregate.get? name
  | .list sequence, .index position => sequence.get? position
  | _, _ => none

/-- The container with the child that a step leads to replaced; nothing changes if there is none. -/
def setChild : Value → Step → Value → Value
  | .map entries, .key name, child =>
    if Entries.contains entries name then .map (Entries.insert entries name child)
    else .map entries
  | .record aggregate, .key name, child => .record (aggregate.setValue name child)
  | .list sequence, .index position, child => .list (sequence.set position child)
  | value, _, _ => value

/-- An element that has been replaced is found again. -/
theorem child?_setChild_index {sequence : Sequence Value} {position : Nat}
    (present : position < sequence.size) (child : Value) :
    ((Value.list sequence).setChild (.index position) child).child? (.index position) =
      some child := by
  simp only [setChild, child?, Sequence.get?, Sequence.set]
  simp [Sequence.size] at present
  simp [present]

/-- An entry that has been replaced is found again. -/
theorem child?_setChild_key {entries : Entries Value} {name : String}
    (present : Entries.contains entries name = true) (child : Value) :
    ((Value.map entries).setChild (.key name) child).child? (.key name) = some child := by
  simp [setChild, present, child?, Entries.get?_insert]

/-! ## Everything below a place -/

/-- The value at a place and everything below it, with the places: a container before its children,
the children in order.  References are followed. -/
def places (location : Location) (value : Value) : List (Location × Value) :=
  match value with
  | .ref referent => places location referent
  | value => (location, value) :: value.children.attach.flatMap fun child =>
      places (location.child child.1.1) child.1.2
termination_by value
decreasing_by
  · decreasing_tactic
  · exact sizeOf_child_lt child.2

end Value

end NestedData
