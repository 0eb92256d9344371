import NestedData.Access.Edit
import NestedData.Value.Zero

/-!
# Deleting values

This module deletes what a path selects.  Entries of maps and elements of growable lists are removed;
fields of records and elements of lists of fixed length are emptied where they stand, and so is the root.
Nothing is created on the way.  A field that may not be written is a fault if nothing on the way could
select several places, and is passed over otherwise.

Main results:

- `eraseMember_key_absent`: deleting an entry that is not there changes nothing.
-/

namespace NestedData

namespace Action

/-- Deletes the child of a container that a step leads to, one step at a time. -/
def eraseMember (location : Location) (strict : Bool) (step : Step) (container : Value) : Edit :=
  match container, step with
  | .map entries, .key name =>
    if Entries.contains entries name then
      { value := .map (Entries.erase entries name), result := .ok .one }
    else .untouched (.map entries)
  | .record aggregate, .key name =>
    match aggregate.field? name with
    | none => .untouched (.record aggregate)
    | some field =>
      if field.mutable then
        { value := .record (aggregate.setValue name field.value.zeroed), result := .ok .one }
      else if strict then
        .fail (.record aggregate)
          { operation := .delete, path := location.toPath, value := .record aggregate,
            obstacle := .lack (.readOnly name) }
      else .untouched (.record aggregate)
  | .list sequence, .index position =>
    match sequence.get? position with
    | some item =>
      { value := .list (sequence.set position item.zeroed), result := .ok .one }
    | none => .untouched (.list sequence)
  | container, _ => .untouched container

/-- The position that a step leads to. -/
def positionOf? : Step → Option Nat
  | .index position => some position
  | .key _ => none

/-- Deletes the children of a container that steps lead to.  Elements of a growable list are removed
together, each once. -/
def eraseMembers (location : Location) (strict : Bool) (steps : List Step) (container : Value) :
    Edit :=
  match container with
  | .list sequence =>
    if sequence.canGrow then
      let items := sequence.without (steps.filterMap positionOf?)
      { value := .list { sequence with items }
        result := .ok { count := sequence.size - items.size, matched := !steps.isEmpty } }
    else Edit.sequence steps (eraseMember location strict) {} container
  | container => Edit.sequence steps (eraseMember location strict) {} container

/-- Deleting an entry that is not there changes nothing. -/
theorem eraseMember_key_absent {entries : Entries Value} {name : String}
    (absent : Entries.contains entries name = false) (location : Location) (strict : Bool) :
    eraseMember location strict (.key name) (.map entries) =
      .untouched (.map entries) := by
  simp [eraseMember, absent]

/-- Deleting. -/
def erase : Action where
  operation := .delete
  shaping? := none
  whole := Value.zeroed
  member := eraseMembers

end Action

/-- Deletes what a path selects: the root as it is then, and the number of deletions. -/
def Value.eraseAt (root : Value) (path : Path) : Value × Except AccessError Nat :=
  Action.erase.run path root

end NestedData
