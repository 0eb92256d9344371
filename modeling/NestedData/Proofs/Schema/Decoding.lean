import NestedData.Json.Reader
import NestedData.Proofs.Outcome
import NestedData.Schema.Conversion

/-!
# Texts that a conversion decodes

Where a container is asked for and a text is given, the text is read as a document and the value that
it holds is converted in its place.  The keys of a map are such texts, too.  This module instruments
the conversion: it names the texts that are decoded on the way, in order.  It follows the conversion
step by step and asks it for the outcomes that the steps depend on: a child counts only if the
conversion comes to it, that is, if no fault of a child before it was passed on.

Main results:

- `Schema.decodedTexts_single`: by a node, texts are decoded for the value and for its children.
- `Node.eq_of_decodeSource`: where nothing is decoded, the value itself is converted.
-/

namespace NestedData

open Outcome (inTurn)

/-- Names the texts that a conversion decodes. -/
abbrev DecodedTexts := (strict : Bool) → Location → Value → List String

namespace Node

/-- Whether the outcome of a child ends the conversion of the whole. -/
def isEndedBy {α : Type} (node : Node Schema) (outcome : Except SchemaError α) : Bool :=
  !(node.tolerate outcome).isOk

section Parts

variable (library : Json.Library) (node : Node Schema) (convertPart : node.EachPart Convert)
  (decodedPart : node.EachPart DecodedTexts)

/-- What is decoded for the declared fields that are given. -/
def decodedFields (location : Location) (given : Entries Value) : List String :=
  inTurn
    (fun child => (Entries.get? given child.1.1).elim false fun value =>
      node.isEndedBy (convertPart child.1.2 (mem_parts_of_attached child) false
        (location.child (.key child.1.1)) value))
    (fun child => (Entries.get? given child.1.1).elim [] fun value =>
      decodedPart child.1.2 (mem_parts_of_attached child) false (location.child (.key child.1.1))
        value)
    node.children.attach

/-- What is decoded for a record, unless it is refused as a whole. -/
def decodedRecord : DecodedTexts := fun strict location source =>
  match source.namedChildren? with
  | none => []
  | some given =>
    match if strict then given.find? fun child => (node.child? child.1).isNone else none with
    | some _ => []
    | none =>
      match node.zero with
      | .record _ => node.decodedFields convertPart decodedPart location given
      | _ => []

/-- What is decoded for an entry: by the schema of its own, or for the key and, if the key can be
converted, for the value. -/
def decodedEntry (location : Location) (key : String) (value : Value) : List String :=
  match found : node.child? key with
  | some part => decodedPart part (mem_parts_of_child? found) false location value
  | none =>
    match both : node.entries? with
    | some schemas =>
      decodedPart schemas.1 (mem_parts_of_key both) false location (.text key) ++
        if (convertPart schemas.1 (mem_parts_of_key both) false location (.text key)).isOk then
          decodedPart schemas.2 (mem_parts_of_value both) false location value
        else []
    | none => []

/-- What is decoded for a map. -/
def decodedMap : DecodedTexts := fun strict location source =>
  match source.namedChildren? with
  | none => []
  | some given =>
    inTurn
      (fun child => node.isEndedBy (node.convertEntry convertPart strict
        (location.child (.key child.1)) child.1 child.2))
      (fun child => node.decodedEntry convertPart decodedPart (location.child (.key child.1)) child.1
        child.2)
      given

/-- What is decoded for an element. -/
def decodedItem (location : Location) (position : Nat) (item : Value) : List String :=
  match found : node.elementAt? position with
  | some part =>
    decodedPart part (mem_parts_of_elementAt? found) false (location.child (.index position)) item
  | none => []

/-- What is decoded for a list, unless it is refused as a whole. -/
def decodedList (location : Location) (source : Value) : List String :=
  match source with
  | .list { items, .. } =>
    if node.kind = .array ∧ node.length?.getD items.size < items.size then []
    else
      inTurn (fun slot => node.isEndedBy (node.convertItem convertPart location slot.2 slot.1))
        (fun slot => node.decodedItem decodedPart location slot.2 slot.1) items.toList.zipIdx
  | _ => []

/-- What is decoded for a value by the rules for the shape. -/
def decodedPresent : DecodedTexts := fun strict location source =>
  match node.kind with
  | .record => node.decodedRecord convertPart decodedPart strict location source
  | .map => node.decodedMap convertPart decodedPart strict location source
  | .list | .array => node.decodedList convertPart decodedPart location source
  | .ref =>
    match found : node.pointee? with
    | some part => decodedPart part (mem_parts_of_pointee? found) strict location source
    | none => []
  | _ => []

/-- The text itself, if it stands where a container is asked for. -/
def decodedSource (source : Value) : List String :=
  match source with
  | .text content => if node.kind.isContainer then [content] else []
  | _ => []

/-- What is decoded for a value by a node: the value itself, and what is decoded for the value that
it holds. -/
def decodedWith : DecodedTexts := fun strict location value =>
  match node.converter? with
  | some _ => []
  | none =>
    match node.decodeSource library location value.target with
    | .error _ => []
    | .ok source =>
      node.decodedSource value.target ++
        if source.isAbsent then []
        else node.decodedPresent convertPart decodedPart strict location source

variable {node convertPart decodedPart} {location : Location} {part : Schema} {value : Value}

/-- For an entry with a schema of its own, what that schema decodes. -/
theorem decodedEntry_of_part {key : String} (hpart : node.child? key = some part) :
    node.decodedEntry convertPart decodedPart location key value =
      decodedPart part (mem_parts_of_child? hpart) false location value := by
  unfold decodedEntry
  split
  · rename_i other hother
    obtain rfl := Option.some.inj (hother.symm.trans hpart)
    rfl
  · rename_i hmissing
    cases hmissing.symm.trans hpart

/-- For another entry, what the schemas for all entries decode. -/
theorem decodedEntry_of_entries {key : String} {schemas : Schema × Schema}
    (hmissing : node.child? key = none) (hentries : node.entries? = some schemas) :
    node.decodedEntry convertPart decodedPart location key value =
      decodedPart schemas.1 (mem_parts_of_key hentries) false location (.text key) ++
        if (convertPart schemas.1 (mem_parts_of_key hentries) false location (.text key)).isOk then
          decodedPart schemas.2 (mem_parts_of_value hentries) false location value
        else [] := by
  unfold decodedEntry
  split
  · rename_i part hpart
    cases hmissing.symm.trans hpart
  · split
    · rename_i others hothers
      obtain rfl := Option.some.inj (hothers.symm.trans hentries)
      rfl
    · rename_i hnone
      cases hnone.symm.trans hentries

/-- For an element, what its schema decodes. -/
theorem decodedItem_of_part {position : Nat} (hpart : node.elementAt? position = some part) :
    node.decodedItem decodedPart location position value =
      decodedPart part (mem_parts_of_elementAt? hpart) false (location.child (.index position))
        value := by
  unfold decodedItem
  split
  · rename_i other hother
    obtain rfl := Option.some.inj (hother.symm.trans hpart)
    rfl
  · rename_i hmissing
    cases hmissing.symm.trans hpart

/-- For a reference, what the schema of the referent decodes. -/
theorem decodedPresent_of_pointee {strict : Bool} (hkind : node.kind = .ref)
    (hpart : node.pointee? = some part) :
    node.decodedPresent convertPart decodedPart strict location value =
      decodedPart part (mem_parts_of_pointee? hpart) strict location value := by
  unfold decodedPresent
  rw [hkind]
  simp only
  split
  · rename_i other hother
    obtain rfl := Option.some.inj (hother.symm.trans hpart)
    rfl
  · rename_i hmissing
    cases hmissing.symm.trans hpart

end Parts

/-- Where nothing is decoded, a value stands for itself. -/
theorem eq_of_decodeSource {library : Json.Library} {node : Node Schema} {location : Location}
    {value source : Value} (hsource : node.decodeSource library location value = .ok source)
    (hquiet : node.decodedSource value = []) : source = value := by
  unfold decodeSource at hsource
  split at hsource
  · rename_i content
    cases hcontainer : node.kind.isContainer with
    | true => simp [decodedSource, hcontainer] at hquiet
    | false =>
      rw [hcontainer, if_neg Bool.false_ne_true] at hsource
      exact (Except.ok.inj hsource).symm
  · exact (Except.ok.inj hsource).symm

end Node

namespace Schema

/-- The texts that are decoded when a value is converted to the shape that the schema describes, in
order.  In a union, the alternatives are tried up to the first that accepts the value. -/
def decodedTexts (library : Json.Library) : Schema → DecodedTexts
  | .single node =>
    node.decodedWith library (fun part _ => part.convert library)
      fun part _ => part.decodedTexts library
  | .choice union => fun _ location value =>
    inTurn (fun alternative => ((single alternative.1.2).convert library true location value).isOk)
      (fun alternative => (single alternative.1.2).decodedTexts library true location value)
      union.ordered.attach
termination_by schema => schema
decreasing_by
  · exact sizeOf_part_lt ‹_›
  · exact sizeOf_alternative_lt (NodeUnion.mem_of_mem_ordered alternative.2)

/-- By a node, texts are decoded for the value and for its children by the parts. -/
theorem decodedTexts_single (library : Json.Library) (node : Node Schema) :
    (Schema.single node).decodedTexts library =
      node.decodedWith library (fun part _ => part.convert library)
        fun part _ => part.decodedTexts library := by
  rw [decodedTexts]

-- The map is refused, so that the conversion does not come to the last text.
example :
    let numbers : Schema := .single { shape := .list (some (.single { shape := .int })) }
    let table : Schema := .single { shape := .list (some numbers) }
    table.decodedTexts Json.exact false [] (.ofItems #[.text "[]", .map [], .text "[]"]) =
      ["[]"] := by
  cbv

end Schema

end NestedData
