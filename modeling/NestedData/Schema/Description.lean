import NestedData.Schema.Basic

/-!
# Descriptions of schemas

This module writes a schema as a short text for messages: the kind with the schemas that apply to all
children, a record by its type name, a union by its name.  A question mark says that the value may be
absent.
-/

namespace NestedData

namespace Node

/-- The description of a node, from those of its parts. -/
def describeWith (node : Node Schema) (describePart : node.EachPart String) : String :=
  let element :=
    match found : node.element? with
    | some part => describePart part (mem_parts_of_element? found)
    | none => Kind.any.name
  let plain :=
    match node.shape with
    | .record => "record " ++ node.typeName.getD "<anonymous>"
    | .map _ =>
      match found : node.entries? with
      | some (key, value) =>
        "map<" ++ describePart key (mem_parts_of_key found) ++ ", " ++
          describePart value (mem_parts_of_value found) ++ ">"
      | none => "object"
    | .list _ => "list<" ++ element ++ ">"
    | .array _ => "array[" ++ Text.ofNat (node.length?.getD 0) ++ "]<" ++ element ++ ">"
    | .ref _ =>
      match found : node.pointee? with
      | some part => "ref<" ++ describePart part (mem_parts_of_pointee? found) ++ ">"
      | none => "ref<" ++ Kind.any.name ++ ">"
    | shape => shape.kind.name
  if node.nilable then plain ++ "?" else plain

end Node

namespace Schema

/-- The description of a schema. -/
def describe : Schema → String
  | .single node => node.describeWith fun part _ => part.describe
  | .choice union => "union " ++ union.name
termination_by schema => schema
decreasing_by exact sizeOf_part_lt ‹_›

end Schema

end NestedData
