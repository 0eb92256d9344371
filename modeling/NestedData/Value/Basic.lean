import NestedData.Binary64.Basic
import NestedData.Entries
import NestedData.Kind
import NestedData.Record
import NestedData.Sequence

/-!
# Dynamic values

This module defines the values that paths walk over and schemas describe: scalars, sequences,
entries under keys, records and references.  References are transparent to most operations, which
look at the value a chain of references ends in.

Main results:

- `Value.induct`: a property holds of every value if it passes from the children of a value to the
  value.
- `Value.target_target`: the end of a chain of references is not a reference to a value.
-/

namespace NestedData

/-- A dynamically typed value. -/
inductive Value
  /-- The absent value. -/
  | null
  /-- A truth value. -/
  | bool (truth : Bool)
  /-- A signed 64-bit integer. -/
  | int (number : Int64)
  /-- A double precision number. -/
  | float (number : Binary64)
  /-- A text. -/
  | text (content : String)
  /-- A row of elements, growable or of fixed length. -/
  | list (sequence : Sequence Value)
  /-- Entries under distinct keys, in insertion order. -/
  | map (entries : List (String × Value))
  /-- A named aggregate of declared fields. -/
  | record (aggregate : Record Value)
  /-- A reference to a value. -/
  | ref (referent : Value)
  /-- A reference to nothing. -/
  | nilRef

namespace Value

instance : Inhabited Value := ⟨.null⟩

/-! ## Children are smaller -/

theorem sizeOf_item_lt {sequence : Sequence Value} {item : Value} (mem : item ∈ sequence.items) :
    sizeOf item < sizeOf (Value.list sequence) := by
  have := Array.sizeOf_lt_of_mem mem
  cases sequence
  simp only [list.sizeOf_spec, Sequence.mk.sizeOf_spec] at this ⊢
  omega

theorem sizeOf_entry_lt {entries : Entries Value} {entry : String × Value} (mem : entry ∈ entries) :
    sizeOf entry.2 < sizeOf (Value.map entries) := by
  have := List.sizeOf_lt_of_mem mem
  cases entry
  simp only [map.sizeOf_spec, Prod.mk.sizeOf_spec] at this ⊢
  omega

theorem sizeOf_field_lt {aggregate : Record Value} {field : Field Value}
    (mem : field ∈ aggregate.fields) : sizeOf field.value < sizeOf (Value.record aggregate) := by
  have := List.sizeOf_lt_of_mem mem
  cases field
  cases aggregate
  simp only [record.sizeOf_spec, Record.mk.sizeOf_spec, Field.mk.sizeOf_spec] at this ⊢
  omega

/-- A property holds of every value if it passes from the children of a value to the value. -/
theorem induct {motive : Value → Prop} (null : motive .null) (bool : ∀ truth, motive (.bool truth))
    (int : ∀ number, motive (.int number)) (float : ∀ number, motive (.float number))
    (text : ∀ content, motive (.text content))
    (list : ∀ sequence : Sequence Value, (∀ item ∈ sequence.items, motive item) →
      motive (.list sequence))
    (map : ∀ entries : Entries Value, (∀ entry ∈ entries, motive entry.2) →
      motive (.map entries))
    (record : ∀ aggregate : Record Value, (∀ field ∈ aggregate.fields, motive field.value) →
      motive (.record aggregate))
    (ref : ∀ referent, motive referent → motive (.ref referent)) (nilRef : motive .nilRef) :
    ∀ value, motive value
  | .null => null
  | .bool truth => bool truth
  | .int number => int number
  | .float number => float number
  | .text content => text content
  | .list sequence => list sequence fun item _ =>
    induct null bool int float text list map record ref nilRef item
  | .map entries => map entries fun entry _ =>
    induct null bool int float text list map record ref nilRef entry.2
  | .record aggregate => record aggregate fun field _ =>
    induct null bool int float text list map record ref nilRef field.value
  | .ref referent => ref referent
    (induct null bool int float text list map record ref nilRef referent)
  | .nilRef => nilRef
termination_by value => value
decreasing_by
  · exact sizeOf_item_lt ‹_›
  · exact sizeOf_entry_lt ‹_›
  · exact sizeOf_field_lt ‹_›
  · decreasing_tactic

/-! ## Kinds -/

/-- The kind of a value. -/
def kind : Value → Kind
  | .null => .null
  | .bool _ => .bool
  | .int _ => .int
  | .float _ => .float
  | .text _ => .string
  | .list { extent := .growable, .. } => .list
  | .list { extent := .fixed, .. } => .array
  | .map _ => .map
  | .record _ => .record
  | .ref _ | .nilRef => .ref

/-- The name of a record's type, or else the name of the kind. -/
def typeName : Value → String
  | .record aggregate => aggregate.name
  | value => value.kind.name

/-- Whether there is no value: null or a reference to nothing. -/
def isAbsent : Value → Bool
  | .null | .nilRef => true
  | _ => false

/-- Whether the value is null itself. -/
def isNull : Value → Bool
  | .null => true
  | _ => false

/-! ## References -/

/-- The value at the end of a chain of references. -/
def target : Value → Value
  | .ref referent => referent.target
  | value => value

theorem target_ne_ref (value referent : Value) : value.target ≠ .ref referent := by
  induction value using induct <;> simp_all [target]

/-- Looking for the end of a chain of references stops there. -/
@[simp]
theorem target_target (value : Value) : value.target.target = value.target := by
  induction value using induct <;> simp_all [target]

theorem sizeOf_target_le (value : Value) : sizeOf value.target ≤ sizeOf value := by
  induction value using induct with
  | ref referent ih =>
    simp only [target, ref.sizeOf_spec]
    omega
  | _ => simp [target]

/-- Changes the value at the end of a chain of references. -/
def mapTarget (f : Value → Value) : Value → Value
  | .ref referent => .ref (referent.mapTarget f)
  | value => f value

/-- Points a reference, empty or not, at another value.  What is not a reference is replaced. -/
def rebind (value replacement : Value) : Value :=
  match value with
  | .ref _ | .nilRef => .ref replacement
  | _ => replacement

/-! ## Lists, maps and records as values -/

/-- A growable list of the given elements. -/
def ofItems (items : Array Value) : Value :=
  .list (.growable items)

/-- The text, or the empty text if the value is none. -/
def textOrEmpty : Value → String
  | .text content => content
  | _ => ""

end Value

end NestedData
