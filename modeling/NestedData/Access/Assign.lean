import NestedData.Access.Edit

/-!
# Assigning values

This module assigns a value at every place that a path selects, creating what is missing on the way.  A
value is written through a reference that is there already, unless it is a reference itself.  A field
that may not be written is a fault if nothing on the way could select several places, and is passed over
otherwise.

Main results:

- `assign_of_plain`: what is not a reference is replaced.
-/

namespace NestedData

namespace Value

/-- Whether the value is a reference, to a value or to nothing. -/
def isReference : Value → Bool
  | .ref _ | .nilRef => true
  | _ => false

/-- What a slot holds after a value has been written into it. -/
def assign (slot value : Value) : Value :=
  if slot.isReference && !value.isReference then
    slot.mapTarget fun target =>
      match target with
      | .nilRef => .ref value
      | _ => value
  else value

/-- What is not a reference is replaced. -/
theorem assign_of_plain {slot : Value} (plain : slot.isReference = false) (value : Value) :
    slot.assign value = value := by
  simp [assign, plain]

end Value

namespace Action

/-- Writes a value into the child of a container that a step leads to, adding it if it is missing. -/
def assignMember (shaping : Shaping) (value : Value) (location : Location) (strict : Bool)
    (step : Step) (container : Value) : Edit :=
  match container, step with
  | .map entries, .key name =>
    let written :=
      match Entries.get? entries name with
      | some slot => slot.assign value
      | none => value
    { value := .map (Entries.insert entries name written), result := .ok .one }
  | .record aggregate, .key name =>
    match aggregate.field? name with
    | none => .untouched (.record aggregate)
    | some field =>
      if field.mutable then
        { value := .record (aggregate.setValue name (field.value.assign value)), result := .ok .one }
      else if strict then
        .fail (.record aggregate)
          { operation := .set, path := location.toPath, value := .record aggregate,
            obstacle := .lack (.readOnly name) }
      else .untouched (.record aggregate)
  | .list sequence, .index position =>
    let roomy := padTo shaping location position sequence
    match roomy.get? position with
    | some slot =>
      { value := .list (roomy.set position (slot.assign value)), result := .ok .one }
    | none => .untouched (.list roomy)
  | container, _ => .untouched container

/-- Assigning a value, in the given shapes. -/
def assign (shaping : Shaping) (value : Value) : Action where
  operation := .set
  shaping? := some shaping
  whole := fun slot => slot.assign value
  member := fun location strict steps container =>
    Edit.sequence steps (assignMember shaping value location strict) {} container

end Action

/-- Assigns a value at every place that a path selects: the root as it is then, and the number of
assignments. -/
def Value.setAt (root : Value) (path : Path) (value : Value) (shaping : Shaping) :
    Value × Except AccessError Nat :=
  (Action.assign shaping value).run path root

end NestedData
