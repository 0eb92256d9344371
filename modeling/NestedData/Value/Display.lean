import NestedData.Decimal.Layout
import NestedData.Text.Integer
import NestedData.Text.Truth
import NestedData.Value.Basic

/-!
# The text of a value

This module writes values for people to read.  Scalars are written plainly, lists in brackets, maps
and records in braces, and a reference as an ampersand before what it refers to.  Fields that paths
do not see are left out.  Error messages show a value as its type name with this text, cut short.

Main results:

- `length_snapshot_le`: the text in an error message has at most sixty-seven characters.
-/

namespace NestedData

namespace Value

/-- The text of a value. -/
def display : Value → String
  | .null | .nilRef => "null"
  | .bool truth => Text.ofBool truth
  | .int number => Text.ofInt number.toInt
  | .float number => String.ofList number.display
  | .text content => content
  | .list sequence => "[" ++ ", ".intercalate (sequence.items.map display).toList ++ "]"
  | .map entries =>
    "\x7b" ++ ", ".intercalate (entries.map fun entry => entry.1 ++ ": " ++ entry.2.display) ++ "\x7d"
  | .record aggregate =>
    aggregate.name ++ "\x7b" ++ ", ".intercalate ((aggregate.fields.filter Field.exported).map
      fun field => field.name ++ ": " ++ field.value.display) ++ "\x7d"
  | .ref referent => "&" ++ referent.display
termination_by value => value
decreasing_by
  · exact sizeOf_item_lt ‹_›
  · exact sizeOf_entry_lt ‹_›
  · exact sizeOf_field_lt ‹_›
  · decreasing_tactic

/-- How many characters of a value's text an error message shows. -/
def snapshotLimit : Nat := 64

/-- The text of a value in an error message: its type name and its text, cut short. -/
def snapshot (value : Value) : String :=
  let full := value.typeName ++ "(" ++ value.display ++ ")"
  if full.length ≤ snapshotLimit then full
  else String.ofList (full.toList.take snapshotLimit) ++ "..."

/-- The text in an error message has at most sixty-seven characters. -/
theorem length_snapshot_le (value : Value) : value.snapshot.length ≤ snapshotLimit + 3 := by
  simp only [snapshot]
  split
  · omega
  · simp only [String.length_append, String.length_ofList, List.length_take]
    have : "...".length = 3 := rfl
    omega

end Value

end NestedData
