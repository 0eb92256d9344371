import NestedData.Schema.Basic

/-!
# Zero values of schemas

This module gives every schema the value that stands for an absent one.  A node may say what that is;
otherwise it is the empty value of the shape, built from the zero values of the parts where the shape
asks for children.  A union has the zero value of its preferred alternative.

Main results:

- `Schema.zero_single`, `Schema.zero_choice`: what the zero value is made of.
- `Schema.kind_zero`: the zero value of a node without a default is of the kind that is described.
-/

namespace NestedData

namespace Node

/-- The zero value of a node, from those of its parts. -/
def zeroWith (node : Node Schema) (zeroPart : node.EachPart Value) : Value :=
  match node.default? with
  | some value => value
  | none =>
    match node.shape with
    | .any | .null => .null
    | .bool => .bool false
    | .int => .int 0
    | .float => .float (.zero false)
    | .string => .text ""
    | .list _ => .list (.growable #[])
    | .array _ =>
      .list <| .fixed <| Array.ofFn fun position : Fin (node.length?.getD 0) =>
        match found : node.elementAt? position with
        | some element => zeroPart element (mem_parts_of_elementAt? found)
        | none => .null
    | .map _ => .map []
    | .record =>
      .record <| .ofFields (node.typeName.getD "") <| node.children.attach.map fun child =>
        { name := child.1.1, value := zeroPart child.1.2 (mem_parts_of_attached child) }
    | .ref _ => .nilRef

end Node

namespace Schema

/-- The value that stands for an absent one. -/
def zero : Schema → Value
  | .single node => node.zeroWith fun part _ => part.zero
  | .choice union =>
    match _ : union.preferred? with
    | some alternative => (Schema.single alternative.2).zero
    | none => .null
termination_by schema => schema
decreasing_by
  · exact sizeOf_part_lt ‹_›
  · exact sizeOf_alternative_lt (NodeUnion.mem_of_preferred? ‹_›)

/-- The zero value of a node is made of those of its parts. -/
theorem zero_single (node : Node Schema) :
    (Schema.single node).zero = node.zeroWith fun part _ => part.zero := by
  rw [zero]

/-- The zero value of a union is that of its preferred alternative. -/
theorem zero_choice (union : NodeUnion Schema) :
    (Schema.choice union).zero =
      (union.preferred?.elim .null fun alternative => (Schema.single alternative.2).zero) := by
  rw [zero]
  split <;> simp_all

/-- The zero value of a node without a default is of the kind that is described; where any value is,
it is null. -/
theorem kind_zero {node : Node Schema} (plain : node.default? = none) (definite : node.kind ≠ .any) :
    (Schema.single node).zero.kind = node.kind := by
  rw [zero_single, Node.zeroWith, plain]
  unfold Node.kind at definite ⊢
  cases shape : node.shape <;> simp_all [Shape.kind, Value.kind, Sequence.growable, Sequence.fixed]

end Schema

/-- The value that stands for an absent one. -/
def Node.zero (node : Node Schema) : Value :=
  (Schema.single node).zero

end NestedData
