import NestedData.Location
import NestedData.Schema.Error

/-!
# Schemas of places

This module finds the node that describes a place.  A path is followed into a schema as into a value of
that shape: references are passed through, the schema for one child goes before the schema for all of
them, and below a node that describes every value there is only that.  In a union the alternatives are
tried in their order, and the first one with such a place decides.

Main results:

- `Schema.lookup_single`, `Schema.lookup_choice`: what a look-up goes through.
-/

namespace NestedData

/-- Follows segments from a place into a schema. -/
abbrev Lookup := List Segment → Location → Except SchemaError (Node Schema)

namespace Node

/-- The fault of a node that describes no such place. -/
def noPlace (node : Node Schema) (location : Location) (why : Absence) :
    Except SchemaError (Node Schema) :=
  .error { path := location.toPath, schema := .single node, fault := .absent why }

/-- Follows a segment to the value under a key. -/
def lookupEntry (node : Node Schema) (lookupPart : node.EachPart Lookup)
    (key : String) (rest : List Segment) (location : Location) : Except SchemaError (Node Schema) :=
  match found : node.valueAt? key with
  | some part => lookupPart part (mem_parts_of_valueAt? found) rest (location.child (.key key))
  | none =>
    if node.entries?.isNone && node.children.isEmpty then .ok .any
    else node.noPlace location (.noEntry key)

/-- Follows a segment to a field. -/
def lookupField (node : Node Schema) (lookupPart : node.EachPart Lookup)
    (name : String) (rest : List Segment) (location : Location) : Except SchemaError (Node Schema) :=
  match found : node.child? name with
  | some part => lookupPart part (mem_parts_of_child? found) rest (location.child (.key name))
  | none => node.noPlace location (.noField name)

/-- Follows a segment to an element. -/
def lookupElement (node : Node Schema) (lookupPart : node.EachPart Lookup)
    (position : Nat) (rest : List Segment) (location : Location) : Except SchemaError (Node Schema) :=
  match node.length?.filter (· ≤ position) with
  | some length => node.noPlace location (.beyondLength position length)
  | none =>
    match found : node.elementAt? position with
    | some part =>
      lookupPart part (mem_parts_of_elementAt? found) rest (location.child (.index position))
    | none => .ok .any

/-- Follows segments without root marks from a node. -/
def lookupWith (node : Node Schema) (lookupPart : node.EachPart Lookup) : Lookup
  | [], _ => .ok node
  | segment :: rest, location =>
    if node.kind = .any then .ok .any
    else if node.kind = .ref then
      match found : node.pointee? with
      | some part => lookupPart part (mem_parts_of_pointee? found) (segment :: rest) location
      | none => .ok .any
    else if segment.isMultiValued then node.noPlace location (.several segment)
    else
      match node.kind, segment with
      | .map, .key name => node.lookupEntry lookupPart name rest location
      | .map, .index position => node.lookupEntry lookupPart (Text.ofNat position) rest location
      | .record, .key name => node.lookupField lookupPart name rest location
      | .list, .index position | .array, .index position =>
        node.lookupElement lookupPart position rest location
      | kind, segment => node.noPlace location (.inapplicable segment kind)

end Node

/-- The first node that was found, or else the last fault. -/
def firstFound (fault : SchemaError) :
    List (Except SchemaError (Node Schema)) → Except SchemaError (Node Schema)
  | [] => .error fault
  | .ok node :: _ => .ok node
  | .error fault :: rest => firstFound fault rest

namespace Schema

/-- Follows segments without root marks from a place into a schema. -/
def lookup : Schema → Lookup
  | .single node => node.lookupWith fun part _ => part.lookup
  | .choice union => fun segments location =>
    firstFound
      { path := location.toPath, schema := .choice union, fault := .absent .emptyUnion }
      (union.ordered.attach.map fun alternative =>
        (Schema.single alternative.1.2).lookup segments location)
termination_by schema => schema
decreasing_by
  · exact sizeOf_part_lt ‹_›
  · exact sizeOf_alternative_lt (NodeUnion.mem_of_mem_ordered alternative.2)

/-- The node that describes the place a path leads to. -/
def at? (schema : Schema) (path : Path) : Except SchemaError (Node Schema) :=
  if path.isRecursive then .error { path, schema, fault := .absent .search }
  else schema.lookup (path.first.filter (· != .root)) []

/-! ## What a look-up goes through -/

/-- In a node, the look-up goes on in its parts. -/
theorem lookup_single (node : Node Schema) :
    (Schema.single node).lookup = node.lookupWith fun part _ => part.lookup := by
  rw [lookup]

/-- In a union, the alternatives are looked through. -/
theorem lookup_choice (union : NodeUnion Schema) (segments : List Segment) (location : Location) :
    (Schema.choice union).lookup segments location =
      firstFound
        { path := location.toPath, schema := .choice union, fault := .absent .emptyUnion }
        (union.ordered.map fun alternative =>
          (Schema.single alternative.2).lookup segments location) := by
  rw [lookup]
  exact congrArg (firstFound _) (@List.attach_map_val _ _ union.ordered fun alternative =>
    (Schema.single alternative.2).lookup segments location)

end Schema

end NestedData
