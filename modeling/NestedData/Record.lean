/-!
# Records

This module provides records: a type name and declared fields in order.  A field says whether paths
may see it and whether writes through a path may replace its value.  Fields are never added or
removed through a path; only their values change.

Main results:

- `names_setValue`: assigning a value keeps the fields and their order.
-/

namespace NestedData

/-- One field of a record. -/
structure Field (α : Type) where
  /-- The name, distinct within the record. -/
  name : String
  /-- The current value. -/
  value : α
  /-- Whether paths see the field. -/
  exported : Bool := true
  /-- Whether writes through a path may replace the value. -/
  mutable : Bool := true

/-- Whether a path may both see and write the field. -/
def Field.isWritable {α : Type} (field : Field α) : Bool :=
  field.exported && field.mutable

/-- A named aggregate of declared fields. -/
structure Record (α : Type) where
  /-- The name of the record's type. -/
  name : String
  /-- The fields, in declaration order. -/
  fields : List (Field α) := []

namespace Record

variable {α : Type}

/-- The field of a name, seen by paths or not. -/
def field? (record : Record α) (name : String) : Option (Field α) :=
  record.fields.find? fun field => field.name == name

/-- The fields that paths see, in declaration order. -/
def exportedFields (record : Record α) : List (Field α) :=
  record.fields.filter Field.exported

/-- The value of a field that paths see. -/
def get? (record : Record α) (name : String) : Option α :=
  match record.field? name with
  | some field => if field.exported then some field.value else none
  | none => none

/-- Changes the first field of a name. -/
def modifyField (record : Record α) (name : String) (f : Field α → Field α) : Record α :=
  { record with fields := go record.fields }
where
  /-- Changes the first field of the name in a list. -/
  go : List (Field α) → List (Field α)
    | [] => []
    | field :: rest => if field.name = name then f field :: rest else field :: go rest

/-- Assigns the value of a field, if there is one of that name. -/
def setValue (record : Record α) (name : String) (value : α) : Record α :=
  record.modifyField name fun field => { field with value }

/-- Declares a field: in place of the field of that name, or else at the end. -/
def put (record : Record α) (field : Field α) : Record α :=
  if (record.field? field.name).isSome then record.modifyField field.name fun _ => field
  else { record with fields := record.fields ++ [field] }

/-- A record with the given fields, declared one after the other. -/
def ofFields (name : String) (fields : List (Field α)) : Record α :=
  fields.foldl put { name }

/-- The same fields with other values. -/
def mapValues (f : α → α) (record : Record α) : Record α :=
  { record with fields := record.fields.map fun field => { field with value := f field.value } }

/-- The field names, in declaration order. -/
def names (record : Record α) : List String :=
  record.fields.map Field.name

/-! ## Assignment keeps the declarations -/

/-- Assigning a value keeps the fields and their order. -/
@[simp]
theorem names_setValue (record : Record α) (name : String) (value : α) :
    (record.setValue name value).names = record.names := by
  unfold setValue modifyField names
  induction record.fields with
  | nil => rfl
  | cons field rest ih =>
    simp only [modifyField.go]
    split
    · rfl
    · simpa using ih

end Record

end NestedData
