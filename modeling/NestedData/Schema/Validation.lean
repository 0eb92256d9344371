import NestedData.Location
import NestedData.Schema.Coercion
import NestedData.Schema.Error

/-!
# Validation

This module checks that a value has exactly the shape that a schema describes.  Nothing is converted:
kinds, type names, declared fields and lengths agree, and every child is valid in turn.  A node that may
be absent is valid for an absent value and puts up with children that are not.  A value is valid for a
union if it is for one of the alternatives, which are tried in their order.

Main results:

- `Schema.validate_single`, `Schema.validate_choice`: what a value is checked against.
- `Schema.isValid_any`: every value is valid for the node that describes every value.
-/

namespace NestedData

/-- Checks a value at a place. -/
abbrev Check := Location → Value → Except SchemaError Unit

/-- The value that a key stands for where keys of the kind are expected: what it reads as, or else the
key as a text. -/
def Kind.readKey (kind : Kind) (key : String) : Value :=
  let parsed? :=
    match kind with
    | .int => (Text.readInt64? key.toList).map Value.int
    | .float => (Binary64.read? key.toList).map Value.float
    | .bool => (Text.readBool? key.toList).map Value.bool
    | _ => none
  parsed?.getD (.text key)

/-- The value that a key stands for where keys of a schema are expected. -/
def Schema.readKey (schema : Schema) (key : String) : Value :=
  match schema.primary? with
  | some node => node.kind.readKey key
  | none => .text key

namespace Node

/-- The fault of a value that is not what the node describes. -/
def violation (node : Node Schema) (location : Location) (value : Value) (why : Violation) :
    Except SchemaError Unit :=
  .error { path := location.toPath, schema := .single node, fault := .invalid value why }

/-- The outcome for a child of a value: nothing is wrong with it if the node puts up with it. -/
def pardon (node : Node Schema) : Except SchemaError Unit → Except SchemaError Unit
  | .ok () => .ok ()
  | .error error => if node.nilable then .ok () else .error error

/-- Checks a record. -/
def checkRecord (node : Node Schema) (checkPart : node.EachPart Check)
    (location : Location) (aggregate : Record Value) : Except SchemaError Unit := do
  let whole := Value.record aggregate
  if let some expected := node.typeName then
    if aggregate.name ≠ expected then
      node.violation location whole (.otherRecord expected aggregate.name)
  aggregate.exportedFields.forM fun field =>
    match found : node.child? field.name with
    | some part => node.pardon <|
      checkPart part (mem_parts_of_child? found) (location.child (.key field.name)) field.value
    | none => node.violation location whole (.undeclaredField field.name)
  match node.children.find? fun child => (aggregate.get? child.1).isNone with
  | some child => node.violation location whole (.missingField child.1)
  | none => .ok ()

/-- Checks an entry of a map. -/
def checkEntry (node : Node Schema) (checkPart : node.EachPart Check)
    (location : Location) (entries : Entries Value) (entry : String × Value) :
    Except SchemaError Unit :=
  let here := location.child (.key entry.1)
  match found : node.child? entry.1 with
  | some part => node.pardon <| checkPart part (mem_parts_of_child? found) here entry.2
  | none =>
    match both : node.entries? with
    | some schemas => do
      node.pardon <| checkPart schemas.1 (mem_parts_of_key both) here (schemas.1.readKey entry.1)
      node.pardon <| checkPart schemas.2 (mem_parts_of_value both) here entry.2
    | none =>
      if node.children.isEmpty then .ok ()
      else node.violation location (.map entries) (.undeclaredKey entry.1)

/-- Checks a list. -/
def checkList (node : Node Schema) (checkPart : node.EachPart Check)
    (location : Location) (sequence : Sequence Value) : Except SchemaError Unit := do
  if let some length := node.length? then
    if sequence.size ≠ length then
      node.violation location (.list sequence) (.otherLength length sequence.size)
  sequence.items.toList.zipIdx.forM fun (item, position) =>
    match found : node.elementAt? position with
    | some part => node.pardon <|
      checkPart part (mem_parts_of_elementAt? found) (location.child (.index position)) item
    | none => .ok ()

/-- Checks the children of a value of the kind that the node describes. -/
def checkChildren (node : Node Schema) (checkPart : node.EachPart Check) : Check
  | location, .record aggregate => node.checkRecord checkPart location aggregate
  | location, .map entries => entries.forM (node.checkEntry checkPart location entries)
  | location, .list sequence => node.checkList checkPart location sequence
  | location, .ref referent =>
    match found : node.pointee? with
    | some part => node.pardon <| checkPart part (mem_parts_of_pointee? found) location referent
    | none => .ok ()
  | _, _ => .ok ()

/-- Checks a value against a node. -/
def validateWith (node : Node Schema) (checkPart : node.EachPart Check) :
    Check := fun location value =>
  match node.validator? with
  | some validator =>
    match validator value with
    | .ok () => .ok ()
    | .error why => .error
      { path := location.toPath, schema := .single node, fault := .validatorRefused value why }
  | none =>
    if node.kind = .any || (node.nilable && value.isAbsent) then .ok ()
    else if value.kind = node.kind then node.checkChildren checkPart location value
    else node.violation location value (.otherKind node.kind value.kind)

end Node

namespace Schema

/-- Checks that a value has the shape that the schema describes. -/
def validate : Schema → Check
  | .single node => node.validateWith fun part _ => part.validate
  | .choice union => fun location value =>
    match union.firstFit? fun alternative _ =>
      (Schema.single alternative.2).validate location value with
    | some _ => .ok ()
    | none => .error
      { path := location.toPath, schema := .choice union, fault := .invalid value .noAlternative }
termination_by schema => schema
decreasing_by
  · exact sizeOf_part_lt ‹_›
  · exact sizeOf_alternative_lt (NodeUnion.mem_of_mem_ordered ‹_›)

/-- Whether a value has the shape that the schema describes. -/
def isValid (schema : Schema) (value : Value) : Bool :=
  (schema.validate [] value).isOk

end Schema

/-- The name of the first alternative that a value is valid for. -/
def NodeUnion.validate (union : NodeUnion Schema) (location : Location) (value : Value) :
    Except SchemaError String :=
  match union.firstFit? fun alternative _ =>
    (Schema.single alternative.2).validate location value with
  | some (name, _) => .ok name
  | none => .error
    { path := location.toPath, schema := .choice union, fault := .invalid value .noAlternative }

namespace Schema

/-! ## What a value is checked against -/

/-- Against a node, the children of a value are checked against the parts. -/
theorem validate_single (node : Node Schema) :
    (Schema.single node).validate = node.validateWith fun part _ => part.validate := by
  rw [validate]

/-- Against a union, a value is valid if it is for an alternative. -/
theorem validate_choice (union : NodeUnion Schema) (location : Location) (value : Value) :
    (Schema.choice union).validate location value =
      (union.validate location value).map fun _ => () := by
  rw [validate, NodeUnion.validate]
  split <;> rename_i outcome <;> simp [outcome, Except.map]

/-- Every value is valid for the node that describes every value. -/
theorem isValid_any (value : Value) : (Schema.single .any).isValid value = true := by
  simp [isValid, validate_single, Node.validateWith, Node.any, Node.kind, Shape.kind, Except.isOk,
    Except.toBool]

end Schema

end NestedData
