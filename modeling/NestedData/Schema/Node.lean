import NestedData.Text.Integer
import NestedData.Value.Basic

/-!
# Nodes of schemas

This module defines the descriptions of values of one kind.  A node says of which kind a value is and
gives the descriptions of its children: one for all of them, or particular ones by name or position.  It
also says what stands in for an absent value and may carry rules of its own for converting and checking
values.  How children are described is left open here.

The parts of a node are the descriptions it is built from.  Everything that descends from a node
goes to its parts.

Main results:

- `Node.mem_parts_of_child?`, `Node.mem_parts_of_elementAt?`, `Node.mem_parts_of_valueAt?`: whatever is
  looked up in a node is one of its parts.
-/

namespace NestedData

/-- The kind of value that a node describes, with the schemas that apply to all its children. -/
inductive Shape (α : Type)
  /-- Any value. -/
  | any
  /-- The absent value. -/
  | null
  /-- A truth value. -/
  | bool
  /-- An integer. -/
  | int
  /-- A double precision number. -/
  | float
  /-- A text. -/
  | string
  /-- A growable list, with the schema of its elements. -/
  | list (element? : Option α)
  /-- A list of fixed length, with the length and the schema of its elements. -/
  | array (bound? : Option (Nat × α))
  /-- Entries, with the schemas of their keys and of their values. -/
  | map (entries? : Option (α × α))
  /-- A record. -/
  | record
  /-- A reference, with the schema of what it refers to. -/
  | ref (pointee? : Option α)

/-- The kind of value that is described. -/
def Shape.kind {α : Type} : Shape α → Kind
  | .any => .any
  | .null => .null
  | .bool => .bool
  | .int => .int
  | .float => .float
  | .string => .string
  | .list _ => .list
  | .array _ => .array
  | .map _ => .map
  | .record => .record
  | .ref _ => .ref

/-- The description of values of one kind. -/
structure Node (α : Type) where
  /-- The kind of value. -/
  shape : Shape α
  /-- The name of the record type, if it matters. -/
  typeName : Option String := none
  /-- Whether the value may be absent and unfit children are put up with. -/
  nilable : Bool := false
  /-- The schemas of particular children: of fields, of entries, or of elements under their positions
  in decimal. -/
  children : List (String × α) := []
  /-- What an absent value is converted to, in place of the empty value of the shape.  What makes it
  is taken to be pure: it gives the same value each time. -/
  default? : Option Value := none
  /-- What converts values, in place of the rules for the shape.  It depends on nothing but the
  value. -/
  converter? : Option (Value → Except String Value) := none
  /-- What checks values, in place of the rules for the shape.  It depends on nothing but the value. -/
  validator? : Option (Value → Except String Unit) := none

/-! ## The parts of a node -/

namespace Node

variable {α : Type}

/-- The node that describes every value. -/
def any : Node α :=
  { shape := .any }

/-- The kind of value that is described. -/
def kind (node : Node α) : Kind :=
  node.shape.kind

/-- The schema of a particular child. -/
def child? (node : Node α) (name : String) : Option α :=
  Entries.get? node.children name

/-- The schema of all elements. -/
def element? (node : Node α) : Option α :=
  match node.shape with
  | .list element? => element?
  | .array bound? => bound?.map Prod.snd
  | _ => none

/-- The length of the array. -/
def length? (node : Node α) : Option Nat :=
  match node.shape with
  | .array bound? => bound?.map Prod.fst
  | _ => none

/-- The schemas of all keys and of all values. -/
def entries? (node : Node α) : Option (α × α) :=
  match node.shape with
  | .map entries? => entries?
  | _ => none

/-- The schema of what the reference refers to. -/
def pointee? (node : Node α) : Option α :=
  match node.shape with
  | .ref pointee? => pointee?
  | _ => none

/-- The schema of the element at a position: the one for that position, or else that of all elements. -/
def elementAt? (node : Node α) (position : Nat) : Option α :=
  (node.child? (Text.ofNat position)).or node.element?

/-- The schema of the value under a key: the one for that key, or else that of all values. -/
def valueAt? (node : Node α) (key : String) : Option α :=
  (node.child? key).or (node.entries?.map Prod.snd)

/-- The schemas that the node is built from. -/
def parts (node : Node α) : List α :=
  node.children.map Prod.snd ++ node.element?.toList ++
    (node.entries?.toList.flatMap fun entry => [entry.1, entry.2]) ++ node.pointee?.toList

/-- Something given for every part of a node. -/
abbrev EachPart (node : Node α) (β : Type) : Type :=
  (part : α) → part ∈ node.parts → β

theorem mem_parts_of_mem_children {node : Node α} {child : String × α}
    (mem : child ∈ node.children) : child.2 ∈ node.parts := by
  simp only [parts, List.mem_append, List.mem_map]
  exact .inl (.inl (.inl ⟨child, mem, rfl⟩))

theorem mem_parts_of_attached {node : Node α} (child : { child // child ∈ node.children }) :
    child.1.2 ∈ node.parts :=
  mem_parts_of_mem_children child.2

/-- The schema found for a particular child is a part. -/
theorem mem_parts_of_child? {node : Node α} {name : String} {schema : α}
    (found : node.child? name = some schema) : schema ∈ node.parts :=
  mem_parts_of_mem_children (Entries.mem_of_get? found)

theorem mem_parts_of_element? {node : Node α} {schema : α} (found : node.element? = some schema) :
    schema ∈ node.parts := by
  simp [parts, found]

/-- The schema found for an element is a part. -/
theorem mem_parts_of_elementAt? {node : Node α} {position : Nat} {schema : α}
    (found : node.elementAt? position = some schema) : schema ∈ node.parts := by
  rcases Option.or_eq_some_iff.1 found with own | ⟨_, common⟩
  · exact mem_parts_of_child? own
  · exact mem_parts_of_element? common

theorem mem_parts_of_key {node : Node α} {entry : α × α} (found : node.entries? = some entry) :
    entry.1 ∈ node.parts := by
  simp [parts, found]

theorem mem_parts_of_value {node : Node α} {entry : α × α} (found : node.entries? = some entry) :
    entry.2 ∈ node.parts := by
  simp [parts, found]

/-- The schema found for the value under a key is a part. -/
theorem mem_parts_of_valueAt? {node : Node α} {key : String} {schema : α}
    (found : node.valueAt? key = some schema) : schema ∈ node.parts := by
  rcases Option.or_eq_some_iff.1 found with own | ⟨_, common⟩
  · exact mem_parts_of_child? own
  · obtain ⟨entry, there, rfl⟩ := Option.map_eq_some_iff.1 common
    exact mem_parts_of_value there

theorem mem_parts_of_pointee? {node : Node α} {schema : α} (found : node.pointee? = some schema) :
    schema ∈ node.parts := by
  simp [parts, found]

end Node

end NestedData
