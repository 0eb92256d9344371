import NestedData.Schema.Union

/-!
# Schemas

This module defines descriptions of the shape of values: one node, or a union of several of which any may
fit.  The children of a node are described by schemas again, so unions occur at every depth.
Everything that descends into a schema goes from a node to its parts and from a union to its
alternatives.

Main results:

- `Schema.sizeOf_part_lt`, `Schema.sizeOf_alternative_lt`: descending into a schema ends.
- `Schema.induct`: a property holds of every schema if it passes from the parts of a node to the node
  and from the alternatives of a union to the union.
-/

namespace NestedData

/-- A description of values: one node or a union of several. -/
inductive Schema
  /-- One node. -/
  | single (node : Node Schema)
  /-- A union of nodes. -/
  | choice (union : NodeUnion Schema)

/-! ## Descending into a schema -/

namespace Schema

instance : Inhabited Schema := ⟨.single .any⟩

/-- The node that stands for a schema where a single shape is needed: the node itself, or the preferred
alternative of a union. -/
def primary? : Schema → Option (Node Schema)
  | .single node => some node
  | .choice union => union.preferred?.map Prod.snd

/-- A part of a node is smaller than the node. -/
theorem sizeOf_part_lt {node : Node Schema} {part : Schema} (mem : part ∈ node.parts) :
    sizeOf part < sizeOf (Schema.single node) := by
  obtain ⟨shape, typeName, nilable, children, default?, converter?, validator?⟩ := node
  simp only [single.sizeOf_spec, Node.mk.sizeOf_spec]
  simp only [Node.parts, List.mem_append, List.mem_map, List.mem_flatMap, Option.mem_toList] at mem
  rcases mem with ((⟨child, there, rfl⟩ | element) | ⟨entry, there, either⟩) | pointee
  · have := List.sizeOf_lt_of_mem there
    cases child
    simp only [Prod.mk.sizeOf_spec] at this ⊢
    omega
  · cases shape with
    | list element? =>
      obtain rfl : element? = some part := element
      simp only [Shape.list.sizeOf_spec, Option.some.sizeOf_spec]
      omega
    | array bound? =>
      obtain ⟨⟨length, _⟩, rfl, rfl⟩ := Option.map_eq_some_iff.1 element
      simp only [Shape.array.sizeOf_spec, Option.some.sizeOf_spec, Prod.mk.sizeOf_spec]
      omega
    | _ => simp [Node.element?] at element
  · cases shape with
    | map entries? =>
      obtain rfl : entries? = some entry := there
      obtain ⟨key, value⟩ := entry
      simp only [Shape.map.sizeOf_spec, Option.some.sizeOf_spec, Prod.mk.sizeOf_spec]
      simp only [List.mem_cons, List.not_mem_nil, or_false] at either
      rcases either with rfl | rfl <;> omega
    | _ => simp [Node.entries?] at there
  · cases shape with
    | ref pointee? =>
      obtain rfl : pointee? = some part := pointee
      simp only [Shape.ref.sizeOf_spec, Option.some.sizeOf_spec]
      omega
    | _ => simp [Node.pointee?] at pointee

/-- An alternative of a union is smaller than the union. -/
theorem sizeOf_alternative_lt {union : NodeUnion Schema} {alternative : String × Node Schema}
    (mem : alternative ∈ union.alternatives) :
    sizeOf (Schema.single alternative.2) < sizeOf (Schema.choice union) := by
  have := List.sizeOf_lt_of_mem mem
  cases alternative
  cases union
  simp only [Prod.mk.sizeOf_spec, single.sizeOf_spec, choice.sizeOf_spec,
    NodeUnion.mk.sizeOf_spec] at this ⊢
  omega

/-- A property holds of every schema if it passes from the parts of a node to the node and from the
alternatives of a union to the union. -/
theorem induct {motive : Schema → Prop}
    (single : ∀ node : Node Schema, (∀ part ∈ node.parts, motive part) → motive (.single node))
    (choice : ∀ union : NodeUnion Schema,
      (∀ alternative ∈ union.alternatives, motive (.single alternative.2)) → motive (.choice union)) :
    ∀ schema, motive schema
  | .single node => single node fun part _ => induct single choice part
  | .choice union => choice union fun alternative _ => induct single choice (.single alternative.2)
termination_by schema => schema
decreasing_by
  · exact sizeOf_part_lt ‹_›
  · exact sizeOf_alternative_lt ‹_›

end Schema

end NestedData
