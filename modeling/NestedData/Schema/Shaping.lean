import NestedData.Access.Edit
import NestedData.Schema.Lookup
import NestedData.Schema.Zero

/-!
# Shaping by schemas

This module lets a schema decide what an assignment creates on its way.  A container that is missing is
the zero value of the node at its place, and a list is padded with the zero values of its elements.
Where the schema has no such node, or one that describes no container, the path decides.

Main results:

- `Schema.zeroAt_of_lookup`: a place that the schema describes is padded with its zero value.
- `Schema.containerAt_of_lookup`: a missing container is the zero value of its node.
-/

namespace NestedData.Schema

/-- The value that pads a list at a place. -/
def zeroAt (schema : Schema) (location : Location) : Value :=
  match schema.at? location.toPath with
  | .ok node => node.zero
  | .error _ => .null

/-- The node of the container at a place: a reference is taken for what it refers to. -/
def containerNode? (schema : Schema) (location : Location) : Option (Node Schema) :=
  match schema.at? location.toPath with
  | .ok node =>
    let target? := if node.kind = .ref then node.pointee?.bind primary? else some node
    target?.filter fun node => node.kind.isContainer
  | .error _ => none

/-- The container created at a place for a segment to select from. -/
def containerAt (schema : Schema) (location : Location) (segment : Segment) : Value :=
  match schema.containerNode? location with
  | some node => node.zero
  | none => Shaping.plain.containerAt location segment

/-- The shapes that the schema asks for. -/
def shaping (schema : Schema) : Shaping where
  zeroAt := schema.zeroAt
  containerAt := schema.containerAt

/-- A place that the schema describes is padded with its zero value. -/
theorem zeroAt_of_lookup {schema : Schema} {location : Location} {node : Node Schema}
    (found : schema.at? location.toPath = .ok node) : schema.zeroAt location = node.zero := by
  rw [zeroAt, found]

/-- A missing container is the zero value of its node. -/
theorem containerAt_of_lookup {schema : Schema} {location : Location} {node : Node Schema}
    (found : schema.at? location.toPath = .ok node) (container : node.kind.isContainer = true)
    (segment : Segment) : schema.containerAt location segment = node.zero := by
  have direct : node.kind ≠ .ref := by
    intro isRef
    simp [isRef, Kind.isContainer, Kind.isLinear, Kind.isAssociative] at container
  simp [containerAt, containerNode?, found, direct, container, Option.filter]

end NestedData.Schema
