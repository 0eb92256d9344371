import Mathlib.Tactic.MkIffOfInductiveProp
import NestedData.Schema.Basic

/-!
# Classes of schemas

This module says of what schemas a theorem speaks: a property of nodes and a
property of unions hold of everything a schema is built from, at every depth.
The classes that later results need are named here.

Main results:

- `Schema.everywhere_single_iff`, `Schema.everywhere_choice_iff`: what a class asks
  of a node with its parts and of a union with its alternatives.
-/

namespace NestedData

namespace Schema

variable {onNode : Node Schema → Prop} {onUnion : NodeUnion Schema → Prop}

/-- A property of nodes and a property of unions hold at every depth of a schema. -/
inductive Everywhere (onNode : Node Schema → Prop) (onUnion : NodeUnion Schema → Prop) :
    Schema → Prop
  | single {node : Node Schema} (hnode : onNode node)
      (hparts : ∀ part ∈ node.parts, Everywhere onNode onUnion part) :
      Everywhere onNode onUnion (.single node)
  | choice {union : NodeUnion Schema} (hunion : onUnion union)
      (halternatives : ∀ alternative ∈ union.alternatives,
        Everywhere onNode onUnion (.single alternative.2)) :
      Everywhere onNode onUnion (.choice union)

/-- A node is in a class when the node itself and its parts are. -/
@[simp]
theorem everywhere_single_iff {node : Node Schema} :
    Everywhere onNode onUnion (.single node) ↔
      onNode node ∧ ∀ part ∈ node.parts, Everywhere onNode onUnion part :=
  ⟨fun h => by cases h; exact ⟨‹_›, ‹_›⟩, fun h => .single h.1 h.2⟩

/-- A union is in a class when the union itself and its alternatives are. -/
@[simp]
theorem everywhere_choice_iff {union : NodeUnion Schema} :
    Everywhere onNode onUnion (.choice union) ↔
      onUnion union ∧ ∀ alternative ∈ union.alternatives,
        Everywhere onNode onUnion (.single alternative.2) :=
  ⟨fun h => by cases h; exact ⟨‹_›, ‹_›⟩, fun h => .choice h.1 h.2⟩

theorem Everywhere.mono {onNode' : Node Schema → Prop} {onUnion' : NodeUnion Schema → Prop}
    {schema : Schema} (hnode : ∀ node, onNode node → onNode' node)
    (hunion : ∀ union, onUnion union → onUnion' union)
    (hschema : Everywhere onNode onUnion schema) : Everywhere onNode' onUnion' schema := by
  induction hschema with
  | single hhere _ ih => exact .single (hnode _ hhere) ih
  | choice hhere _ ih => exact .choice (hunion _ hhere) ih

end Schema

/-! ## Schemas without rules of their own -/

/-- A node converts and checks values by the rules for its shape, stands for the empty
value of the shape, and gives every child one schema. -/
@[mk_iff]
structure Node.IsPlain (node : Node Schema) : Prop where
  /-- Values are converted by the rules for the shape. -/
  converter : node.converter? = none
  /-- Values are checked by the rules for the shape. -/
  validator : node.validator? = none
  /-- An absent value becomes the empty value of the shape. -/
  default : node.default? = none
  /-- The children stand under distinct names. -/
  names : (Entries.keys node.children).Nodup

/-- A union has something to choose from. -/
def NodeUnion.HasAlternatives (union : NodeUnion Schema) : Prop :=
  union.alternatives ≠ []

/-- A schema follows the rules for the shapes of its nodes at every depth, and none of
its unions is empty. -/
def Schema.IsPlain : Schema → Prop :=
  Schema.Everywhere Node.IsPlain NodeUnion.HasAlternatives

/-- A schema follows the rules for the shapes of its nodes at every depth; what its unions are
does not matter. -/
def Schema.HasPlainNodes : Schema → Prop :=
  Schema.Everywhere Node.IsPlain fun _ => True

/-! ## Schemas whose maps treat all entries alike -/

/-- Where the node describes maps, no entry has a schema of its own, and the keys are
described by a single node for scalars or for any value. -/
@[mk_iff]
structure Node.HasUniformEntries (node : Node Schema) : Prop where
  /-- No entry of a map has a schema of its own. -/
  children : node.kind = .map → node.children = []
  /-- Keys are scalars, or anything. -/
  keys : ∀ schemas, node.entries? = some schemas →
    ∃ key : Node Schema, schemas.1 = .single key ∧ (key.kind = .any ∨ key.kind.isScalar = true)

/-- The maps of a schema treat all entries alike, at every depth. -/
def Schema.HasUniformEntries : Schema → Prop :=
  Schema.Everywhere Node.HasUniformEntries fun _ => True

/-! ## Schemas that put up with nothing -/

/-- A plain node that puts up with no unfit child, and whose keys are texts or anything. -/
@[mk_iff]
structure Node.IsRigid (node : Node Schema) : Prop where
  /-- The node has no rules of its own. -/
  plain : node.IsPlain
  /-- Nothing may be absent, and no child unfit. -/
  mandatory : node.nilable = false
  /-- Keys are texts, or anything. -/
  keys : ∀ schemas, node.entries? = some schemas →
    ∃ key : Node Schema, schemas.1 = .single key ∧ (key.kind = .any ∨ key.kind = .string)

/-- A schema without unions whose nodes are rigid at every depth. -/
def Schema.IsRigid : Schema → Prop :=
  Schema.Everywhere Node.IsRigid fun _ => False

theorem Schema.IsRigid.isPlain {schema : Schema} (hrigid : schema.IsRigid) : schema.IsPlain :=
  Schema.Everywhere.mono (fun _ => Node.IsRigid.plain) (fun _ => False.elim) hrigid

/-- A node that checks values by the rules for its shape and puts up with nothing: no value may be
absent, and no child unfit. -/
@[mk_iff]
structure Node.IsStrict (node : Node Schema) : Prop where
  /-- Values are checked by the rules for the shape. -/
  validator : node.validator? = none
  /-- Nothing may be absent, and no child unfit. -/
  mandatory : node.nilable = false

/-- A schema whose nodes are strict at every depth; it may have unions. -/
def Schema.IsStrict : Schema → Prop :=
  Schema.Everywhere Node.IsStrict fun _ => True

/-- A schema without unions. -/
def Schema.WithoutUnions : Schema → Prop :=
  Schema.Everywhere (fun _ => True) fun _ => False

/-! ## Schemas that treat all elements of a growable list alike -/

/-- A node that checks values by the rules for its shape, and no element of a growable list by a
schema of its own. -/
@[mk_iff]
structure Node.HasUniformElements (node : Node Schema) : Prop where
  /-- Values are checked by the rules for the shape. -/
  validator : node.validator? = none
  /-- No element of a growable list has a schema of its own. -/
  positions : node.kind = .list → ∀ position, node.child? (Text.ofNat position) = none

/-- The growable lists of a schema treat all elements alike, at every depth. -/
def Schema.HasUniformElements : Schema → Prop :=
  Schema.Everywhere Node.HasUniformElements fun _ => True

/-! ## Schemas that leave alone what they have made -/

/-- A node that converts by the rules for its shape, and whose rules for children do not get in each
other's way: an entry is described by a particular schema or by those for all entries, keys are
scalars or anything, where an element may be left out no position matters, and no reference leads to
nothing on purpose. -/
@[mk_iff]
structure Node.IsSteady (node : Node Schema) : Prop where
  /-- Values are converted by the rules for the shape. -/
  converter : node.converter? = none
  /-- An absent value becomes the empty value of the shape. -/
  default : node.default? = none
  /-- The children stand under distinct names. -/
  names : (Entries.keys node.children).Nodup
  /-- Where there are schemas for all entries, no entry has a schema of its own. -/
  entries : ∀ schemas, node.entries? = some schemas → node.children = []
  /-- Keys are scalars, or anything. -/
  keys : ∀ schemas, node.entries? = some schemas →
    ∃ key : Node Schema, schemas.1 = .single key ∧ (key.kind = .any ∨ key.kind.isScalar = true)
  /-- Where elements may be left out, none has a schema of its own. -/
  positions : node.kind = .list → node.nilable = true →
    ∀ position, node.child? (Text.ofNat position) = none
  /-- What is referred to is not described as null. -/
  referents : ∀ referent : Node Schema, node.pointee? = some (.single referent) →
    referent.kind ≠ .null

/-- A schema without unions whose nodes are steady at every depth. -/
def Schema.IsSteady : Schema → Prop :=
  Schema.Everywhere Node.IsSteady fun _ => False

end NestedData
