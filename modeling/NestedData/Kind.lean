/-!
# Kinds of values

This module names the kinds a value can have, and the kinds a schema can ask for.  The kind `any`
is asked for by schemas only; every other kind is also the kind of some value.

Main results:

- `ofName?_name`: the name of a kind reads back as the kind.
-/

namespace NestedData

/-- What sort of value something is, or is expected to be. -/
inductive Kind
  /-- Any value at all; no value has this kind. -/
  | any
  /-- The absent value. -/
  | null
  /-- A truth value. -/
  | bool
  /-- A signed 64-bit integer. -/
  | int
  /-- A double precision number. -/
  | float
  /-- A text. -/
  | string
  /-- A list whose length never changes. -/
  | array
  /-- A list that grows and shrinks. -/
  | list
  /-- Entries under distinct keys. -/
  | map
  /-- A named aggregate of declared fields. -/
  | record
  /-- A reference to another value. -/
  | ref
deriving DecidableEq, Repr

namespace Kind

/-- All kinds, in the order they are usually listed. -/
def all : List Kind :=
  [any, null, bool, int, float, string, array, list, map, record, ref]

/-- The lowercase name of a kind. -/
def name : Kind → String
  | any => "any"
  | null => "null"
  | bool => "bool"
  | int => "int"
  | float => "float"
  | string => "string"
  | array => "array"
  | list => "list"
  | map => "map"
  | record => "record"
  | ref => "ref"

/-- The kind with the given name. -/
def ofName? (name : String) : Option Kind :=
  all.find? fun kind => kind.name == name

/-- Whether values of the kind hold a single datum. -/
def isScalar : Kind → Bool
  | bool | int | float | string => true
  | _ => false

/-- Whether values of the kind hold elements in a row. -/
def isLinear : Kind → Bool
  | array | list => true
  | _ => false

/-- Whether values of the kind hold children under names. -/
def isAssociative : Kind → Bool
  | map | record => true
  | _ => false

/-- Whether values of the kind hold children. -/
def isContainer (kind : Kind) : Bool :=
  kind.isLinear || kind.isAssociative

/-- The name of a kind reads back as the kind. -/
theorem ofName?_name (kind : Kind) : ofName? kind.name = some kind := by
  cases kind <;> decide

end Kind

end NestedData
