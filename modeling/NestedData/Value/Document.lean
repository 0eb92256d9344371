import NestedData.Json.Tree
import NestedData.Value.Basic
import NestedData.Value.Error

/-!
# Values as documents

This module turns values into JSON documents and back.  References are followed, fields that paths do
not see are left out, and what a document cannot express becomes null: references to nothing,
infinities and not-a-number.  In the other direction lists become growable, maps stay maps, and a whole
number of the signed 64-bit range becomes an integer.  How a document is spelled is left to a library.
-/

namespace NestedData.Value

/-- The value as a tree. -/
def toTree : Value → Json.Tree
  | .null | .nilRef => .null
  | .bool truth => .bool truth
  | .int number => .number (.ofInt64 number)
  | .float number => ((Json.Number.ofBinary64? number).map .number).getD .null
  | .text content => .text content
  | .list sequence => .list (sequence.items.map toTree)
  | .map entries => .map (Entries.ofList (entries.map fun entry => (entry.1, toTree entry.2)))
  | .record aggregate =>
    .map (Entries.ofList ((aggregate.fields.filter Field.exported).map fun field =>
      (field.name, toTree field.value)))
  | .ref referent => toTree referent
termination_by value => value
decreasing_by
  · exact sizeOf_item_lt ‹_›
  · exact sizeOf_entry_lt ‹_›
  · exact sizeOf_field_lt ‹_›
  · decreasing_tactic

/-- The number as a value: an integer if it is one of the signed 64-bit range. -/
def ofNumber (number : Json.Number) : Value :=
  match number.toInt64? with
  | some integer => .int integer
  | none => .float (number.toBinary64?.getD (.zero false))

/-- The tree as a value. -/
def ofTree : Json.Tree → Value
  | .null => .null
  | .bool truth => .bool truth
  | .number number => ofNumber number
  | .text content => .text content
  | .list items => .ofItems (items.map ofTree)
  | .map entries => .map (Entries.ofList (entries.map fun entry => (entry.1, ofTree entry.2)))
termination_by tree => tree
decreasing_by
  · exact Json.Tree.sizeOf_item_lt ‹_›
  · exact Json.Tree.sizeOf_entry_lt ‹_›

/-- The value as the text of a document. -/
def toJson (library : Json.Library) (value : Value) : String :=
  library.print value.toTree

/-- Reads a value from the text of a document. -/
def ofJson (library : Json.Library) (text : String) : Except ValueError Value :=
  match library.parse text with
  | .ok tree => .ok (ofTree tree)
  | .error detail => .error (.undecodable detail)

end NestedData.Value
