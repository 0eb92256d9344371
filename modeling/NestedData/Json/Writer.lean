import NestedData.Decimal.Layout
import NestedData.Json.Tree

/-!
# Writing documents

This module writes a tree as a document without spaces.  Quotes, backslashes and control characters
are escaped and nothing else; floating numbers are written with the fewest digits that tell them apart.
-/

namespace NestedData.Json

/-! ## Quoted texts -/

/-- A hexadecimal digit, in lowercase. -/
def hexDigit (value : Nat) : Char :=
  if value < 10 then Char.ofNat ('0'.toNat + value) else Char.ofNat ('a'.toNat + (value - 10))

/-- A character inside quotes. -/
def escape (c : Char) : List Char :=
  if c = '"' then ['\\', '"']
  else if c = '\\' then ['\\', '\\']
  else if c = '\x08' then ['\\', 'b']
  else if c = '\x0c' then ['\\', 'f']
  else if c = '\n' then ['\\', 'n']
  else if c = '\r' then ['\\', 'r']
  else if c = '\t' then ['\\', 't']
  else if c.toNat < 0x20 then
    ['\\', 'u', '0', '0', hexDigit (c.toNat / 16), hexDigit (c.toNat % 16)]
  else [c]

/-- A text in quotes. -/
def quote (content : String) : List Char :=
  '"' :: content.toList.flatMap escape ++ ['"']

/-! ## Trees -/

/-- Numbers in documents: positional from `0.00001` to below `10 ^ 16`, whole numbers with a point,
other numbers with a signed power of ten, and a tie goes to the even digit. -/
def layout : Layout where
  tie := .toEven
  isPositional := fun leading => -5 ≤ leading && leading < 16
  keepsPoint := true

/-- A number in a document. -/
def writeNumber : Number → List Char
  | .whole value _ => Text.showInt value
  | .float (.finite negative mantissa exponent canonical) _ =>
    layout.writeFinite negative mantissa exponent canonical
  | .float .nan finite | .float (.infinite _) finite => nomatch finite

/-- A tree as a document. -/
def write : Tree → List Char
  | .null => "null".toList
  | .bool truth => if truth then "true".toList else "false".toList
  | .number value => writeNumber value
  | .text content => quote content
  | .list items => '[' :: [','].intercalate (items.map write).toList ++ [']']
  | .map entries =>
    '\x7b' :: [','].intercalate (entries.map fun entry => quote entry.1 ++ ':' :: write entry.2) ++
      ['\x7d']
termination_by tree => tree
decreasing_by
  · exact Tree.sizeOf_item_lt ‹_›
  · exact Tree.sizeOf_entry_lt ‹_›

end NestedData.Json
