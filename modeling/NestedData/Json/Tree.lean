import NestedData.Binary64.Rounding
import NestedData.Entries
import NestedData.Text.Integer

/-!
# Documents as trees

This module defines what a JSON document says, apart from how it is spelled: a tree of scalars, lists
and maps.  Texts are printed and parsed by a library that the development does not fix: whatever
reads or writes documents takes the library as a parameter.
-/

namespace NestedData.Json

/-! ## Numbers -/

/-- The whole numbers that documents hold exactly: those of the signed or the unsigned 64-bit range. -/
def InRange (n : Int) : Prop :=
  -0x8000000000000000 ≤ n ∧ n < 0x10000000000000000

instance (n : Int) : Decidable (InRange n) :=
  inferInstanceAs (Decidable (_ ∧ _))

/-- A number of a document. -/
inductive Number
  /-- A whole number. -/
  | whole (value : Int) (range : InRange value)
  /-- A double precision number that is neither infinite nor undefined. -/
  | float (value : Binary64) (finite : value.isFinite = true)
deriving DecidableEq

theorem inRange_toInt (number : Int64) : InRange number.toInt := by
  have low := number.le_toInt
  have high := number.toInt_lt
  simp only [InRange]
  omega

namespace Number

/-- A signed 64-bit integer. -/
def ofInt64 (number : Int64) : Number :=
  .whole number.toInt (inRange_toInt number)

/-- A double precision number, if it is finite. -/
def ofBinary64? (number : Binary64) : Option Number :=
  if finite : number.isFinite = true then some (.float number finite) else none

/-- The signed 64-bit integer that the number is, if it is one. -/
def toInt64? : Number → Option Int64
  | .whole value _ => Text.exactInt64? value
  | .float .. => none

/-- The number in double precision. -/
def toBinary64? : Number → Option Binary64
  | .whole value _ => some (.ofInt value)
  | .float value _ => some value

end Number

/-! ## Trees -/

/-- What a document says. -/
inductive Tree
  /-- The absent value. -/
  | null
  /-- A truth value. -/
  | bool (truth : Bool)
  /-- A number. -/
  | number (value : Number)
  /-- A text. -/
  | text (content : String)
  /-- A row of elements. -/
  | list (items : Array Tree)
  /-- Entries under distinct keys, in the order in which they are written. -/
  | map (entries : List (String × Tree))

namespace Tree

instance : Inhabited Tree := ⟨.null⟩

theorem sizeOf_item_lt {items : Array Tree} {item : Tree} (mem : item ∈ items) :
    sizeOf item < sizeOf (Tree.list items) := by
  have := Array.sizeOf_lt_of_mem mem
  simp only [list.sizeOf_spec]
  omega

theorem sizeOf_entry_lt {entries : Entries Tree} {entry : String × Tree} (mem : entry ∈ entries) :
    sizeOf entry.2 < sizeOf (Tree.map entries) := by
  have := List.sizeOf_lt_of_mem mem
  cases entry
  simp only [map.sizeOf_spec, Prod.mk.sizeOf_spec] at this ⊢
  omega

end Tree

/-! ## The library -/

/-- What prints trees as the texts of documents and parses such texts. -/
structure Library where
  /-- The text of a document without spaces. -/
  print : Tree → String
  /-- What a text says, or the message about a text that is no document. -/
  parse : String → Except String Tree

/-- How many lists and maps a library is at least ready to parse inside each other. -/
def depthLimit : Nat := 127

end NestedData.Json
