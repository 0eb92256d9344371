import NestedData.Location
import NestedData.Schema.Coercion
import NestedData.Schema.Error
import NestedData.Schema.Zero
import NestedData.Value.Document

/-!
# Conversion

This module converts loosely typed values to the shape that a schema describes.  References are
followed; an absent value becomes the zero value of the schema; scalars are coerced; containers are
rebuilt child by child, from a document where a text is given, which a library parses.  Records and
maps are made from each other by name.

A fault of a field, an entry or an element is a fault of the whole, unless the node may be absent: then
the child is left out.  A fault of what a reference refers to is always passed on.  In a union the
alternatives are tried in their order, and there a record accepts only the fields that it declares, and
a map without schemas for all entries only the keys that it declares.

Main results:

- `Schema.convert_single`, `Schema.convert_choice`: what a value is converted by.
- `Schema.convert_absent`: an absent value is converted to the zero value, unless the node has a
  converter of its own.
-/

namespace NestedData

/-- Converts a value at a place.  With `strict`, names that are not declared are a fault. -/
abbrev Convert := (strict : Bool) → Location → Value → Except SchemaError Value

/-- The entries of a map, or the fields of a record that paths see. -/
def Value.namedChildren? : Value → Option (Entries Value)
  | .map entries => some entries
  | .record aggregate =>
    some (aggregate.exportedFields.map fun field => (field.name, field.value))
  | _ => none

namespace Node

/-- The fault of a value that cannot be converted. -/
def unconvertible {α : Type} (node : Node Schema) (location : Location) (value : Value)
    (why : Unconvertible) : Except SchemaError α :=
  .error { path := location.toPath, schema := .single node, fault := .unconvertible value why }

/-- What becomes of a child: nothing if there is a fault and the node puts up with it. -/
def tolerate {α : Type} (node : Node Schema) : Except SchemaError α → Except SchemaError (Option α)
  | .ok child => .ok (some child)
  | .error error => if node.nilable then .ok none else .error error

/-- The zero value of the element at a position. -/
def zeroAt (node : Node Schema) (position : Nat) : Value :=
  match node.elementAt? position with
  | some element => element.zero
  | none => .null

/-! ## Records -/

/-- Fills the declared fields from children under their names. -/
def fillRecord (node : Node Schema) (convertPart : node.EachPart Convert)
    (location : Location) (given : Entries Value) (aggregate : Record Value) :
    Except SchemaError (Record Value) :=
  node.children.attach.foldlM
    (fun aggregate child => do
      let name := child.1.1
      match Entries.get? given name with
      | none => .ok aggregate
      | some value =>
        let converted ← node.tolerate <| convertPart child.1.2 (mem_parts_of_attached child)
          false (location.child (.key name)) value
        match converted with
        | none => .ok aggregate
        | some value =>
          if (aggregate.field? name).isSome then .ok (aggregate.setValue name value)
          else .ok (aggregate.put { name, value }))
    aggregate

/-- Converts a value to a record. -/
def convertRecord (node : Node Schema) (convertPart : node.EachPart Convert) :
    Convert := fun strict location source =>
  match source.namedChildren? with
  | none => node.unconvertible location source (.notContainer .record)
  | some given =>
    match if strict then given.find? fun child => (node.child? child.1).isNone else none with
    | some unknown => node.unconvertible location source (.unknownField unknown.1)
    | none =>
      match node.zero with
      | .record aggregate =>
        (node.fillRecord convertPart location given aggregate).map .record
      | other => node.unconvertible location other .defaultNoRecord

/-! ## Maps -/

/-- Converts a key, giving the text of what it is converted to. -/
def convertKey (convert : Convert) (location : Location) (key : String) :
    Except SchemaError String := do
  match ← convert false location (.text key) with
  | .text content => .ok content
  | other => .ok other.display

/-- Converts the value of an entry by the schema of all values. -/
def convertEntryValue (schema : Schema) (convert : Convert) (location : Location) (value : Value) :
    Except SchemaError Value :=
  match schema, convert false location value with
  | .choice union, .error _ => .error
    { path := location.toPath, schema := .choice union,
      fault := .unconvertible value .noEntryAlternative }
  | _, outcome => outcome

/-- Converts an entry at its place. -/
def convertEntry (node : Node Schema) (convertPart : node.EachPart Convert)
    (strict : Bool) (location : Location) (key : String) (value : Value) :
    Except SchemaError (String × Value) :=
  match found : node.child? key with
  | some part => do
    let value ← convertPart part (mem_parts_of_child? found) false location value
    .ok (key, value)
  | none =>
    match both : node.entries? with
    | some schemas => do
      let key ← convertKey (convertPart schemas.1 (mem_parts_of_key both)) location key
      let value ← convertEntryValue schemas.2 (convertPart schemas.2 (mem_parts_of_value both))
        location value
      .ok (key, value)
    | none =>
      if strict then node.unconvertible location value (.unknownKey key) else .ok (key, value)

/-- Converts a value to a map. -/
def convertMap (node : Node Schema) (convertPart : node.EachPart Convert) :
    Convert := fun strict location source =>
  match source.namedChildren? with
  | none => node.unconvertible location source (.notContainer .map)
  | some given => do
    let entries ← given.foldlM
      (fun entries child => do
        let converted ← node.tolerate <|
          node.convertEntry convertPart strict (location.child (.key child.1)) child.1 child.2
        match converted with
        | some (key, value) => .ok (Entries.insert entries key value)
        | none => .ok entries)
      []
    .ok (.map entries)

/-! ## Lists -/

/-- Converts an element at its place. -/
def convertItem (node : Node Schema) (convertPart : node.EachPart Convert)
    (location : Location) (position : Nat) (item : Value) : Except SchemaError Value :=
  match found : node.elementAt? position with
  | some part =>
    convertPart part (mem_parts_of_elementAt? found) false (location.child (.index position)) item
  | none => .ok item

/-- Converts the elements of a list.  One that is left out leaves its zero value behind in a list of
fixed length. -/
def convertItems (node : Node Schema) (convertPart : node.EachPart Convert)
    (location : Location) (items : Array Value) : Except SchemaError (Array Value) :=
  items.toList.zipIdx.foldlM
    (fun done (item, position) => do
      match ← node.tolerate (node.convertItem convertPart location position item) with
      | some value => .ok (done.push value)
      | none => .ok (if node.kind = .array then done.push (node.zeroAt position) else done))
    #[]

/-- Converts a value to a list, or to an array padded to its length. -/
def convertList (node : Node Schema) (convertPart : node.EachPart Convert)
    (location : Location) (source : Value) : Except SchemaError Value :=
  match source with
  | .list { items, .. } => do
    let length := node.length?.getD items.size
    if node.kind = .array then
      if length < items.size then
        node.unconvertible location source (.tooLong items.size length)
      let converted ← node.convertItems convertPart location items
      .ok (.list ((Sequence.fixed converted).pad length node.zeroAt))
    else
      let converted ← node.convertItems convertPart location items
      .ok (.list (.growable converted))
  | _ => node.unconvertible location source (.notContainer node.kind)

/-! ## Nodes -/

/-- What a text stands for where a container is expected: the value of the document it is.  Other
values stand for themselves. -/
def decodeSource (library : Json.Library) (node : Node Schema) (location : Location)
    (source : Value) : Except SchemaError Value :=
  match source with
  | .text content =>
    if node.kind.isContainer then
      match library.parse content with
      | .error detail => .error { path := location.toPath, schema := .single node,
                                  fault := .undecodable source detail }
      | .ok tree =>
        match Value.ofTree tree with
        | .text _ => node.unconvertible location source .textInText
        | decoded => .ok decoded
    else .ok source
  | _ => .ok source

/-- Converts a value that is neither absent nor a reference by the rules for the shape. -/
def convertPresent (node : Node Schema) (convertPart : node.EachPart Convert) :
    Convert := fun strict location source =>
  match node.kind with
  | .any => .ok source
  | .null => .ok .null
  | .record => node.convertRecord convertPart strict location source
  | .map => node.convertMap convertPart strict location source
  | .list | .array => node.convertList convertPart location source
  | .ref =>
    match found : node.pointee? with
    | some part =>
      (convertPart part (mem_parts_of_pointee? found) strict location source).map .ref
    | none => .ok (.ref source)
  | kind =>
    match source.coerce? kind with
    | some scalar => .ok scalar
    | none => node.unconvertible location source (.notScalar kind)

/-- Converts a value by a node. -/
def convertWith (library : Json.Library) (node : Node Schema) (convertPart : node.EachPart Convert) :
    Convert := fun strict location value =>
  match node.converter? with
  | some converter =>
    match converter value with
    | .ok converted => .ok converted
    | .error why => .error
      { path := location.toPath, schema := .single node, fault := .converterRefused why }
  | none => do
    let source ← node.decodeSource library location value.target
    if source.isAbsent then .ok node.zero
    else node.convertPresent convertPart strict location source

end Node

/-! ## Schemas -/

namespace Schema

/-- Converts a value to the shape that the schema describes. -/
def convert (library : Json.Library) : Schema → Convert
  | .single node => node.convertWith library fun part _ => part.convert library
  | .choice union => fun _ location value =>
    match union.firstFit? fun alternative _ =>
      (Schema.single alternative.2).convert library true location value with
    | some (_, converted) => .ok converted
    | none => .error { path := location.toPath, schema := .choice union,
                       fault := .unconvertible value .noAlternative }
termination_by schema => schema
decreasing_by
  · exact sizeOf_part_lt ‹_›
  · exact sizeOf_alternative_lt (NodeUnion.mem_of_mem_ordered ‹_›)

/-- The value in the shape that the schema describes. -/
def conform (library : Json.Library) (schema : Schema) (value : Value) : Except SchemaError Value :=
  schema.convert library false [] value

end Schema

/-- The first alternative that a value can be converted to, by name, and the converted value. -/
def NodeUnion.convert (library : Json.Library) (union : NodeUnion Schema) (location : Location)
    (value : Value) : Except SchemaError (String × Value) :=
  match union.firstFit? fun alternative _ =>
    (Schema.single alternative.2).convert library true location value with
  | some fit => .ok fit
  | none => .error { path := location.toPath, schema := .choice union,
                     fault := .unconvertible value .noAlternative }

namespace Schema

variable {library : Json.Library}

/-! ## What a value is converted by -/

/-- By a node, the children of a value are converted by the parts. -/
theorem convert_single (node : Node Schema) :
    (Schema.single node).convert library =
      node.convertWith library fun part _ => part.convert library := by
  rw [convert]

/-- By a union, a value is converted by the first alternative that accepts it. -/
theorem convert_choice (union : NodeUnion Schema) (strict : Bool) (location : Location)
    (value : Value) :
    (Schema.choice union).convert library strict location value =
      (union.convert library location value).map Prod.snd := by
  rw [convert, NodeUnion.convert]
  split <;> rename_i outcome <;> simp [outcome, Except.map]

/-- An absent value is converted to the zero value, whatever the shape, unless the node has a converter
of its own. -/
theorem convert_absent {node : Node Schema} (plain : node.converter? = none) {value : Value}
    (absent : value.target.isAbsent = true) (strict : Bool) (location : Location) :
    (Schema.single node).convert library strict location value = .ok node.zero := by
  rw [convert_single, Node.convertWith, plain]
  have same : node.decodeSource library location value.target = .ok value.target := by
    unfold Node.decodeSource
    split
    · rename_i content isText
      simp [isText, Value.isAbsent] at absent
    · rfl
  simp [same, absent, bind, Except.bind]

end Schema

end NestedData
