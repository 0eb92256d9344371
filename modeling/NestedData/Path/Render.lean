import NestedData.Path.Basic
import NestedData.Text.Integer
import NestedData.Text.Letter

/-!
# The text of a path

This module writes paths down.  A name that is an identifier is written bare, after a dot unless it
starts its group; every other name is quoted in brackets, with a backslash before quotes and
backslashes.  Two dots stand before every search.
-/

namespace NestedData

/-- Whether a name can be written bare: a letter, then letters, numbers and underscores. -/
def isIdentifier (name : String) : Bool :=
  match name.toList with
  | [] => false
  | first :: rest => Text.isLetter first && rest.all fun c => Text.isLetterOrNumber c || c == '_'

/-- A character inside single quotes. -/
def escapeInQuotes (c : Char) : List Char :=
  if c = '\'' ∨ c = '\\' then ['\\', c] else [c]

/-- A name in single quotes. -/
def quoteName (name : String) : List Char :=
  '\'' :: name.toList.flatMap escapeInQuotes ++ ['\'']

/-- The text of a union entry. -/
def Selector.render : Selector → List Char
  | .key name => quoteName name
  | .index position => Text.showNat position

/-- The text of an optional bound of a slice. -/
def renderBound (bound : Option Int64) : List Char :=
  match bound with
  | some bound => Text.showInt bound.toInt
  | none => []

/-- The text of a segment; `leading` says that it starts its group, where a bare name needs no
dot. -/
def Segment.render (leading : Bool) : Segment → List Char
  | .root => ['$']
  | .key name =>
    if isIdentifier name then
      if leading then name.toList else '.' :: name.toList
    else '[' :: quoteName name ++ [']']
  | .wildcard => ['[', '*', ']']
  | .index position => '[' :: Text.showNat position ++ [']']
  | .union entries => '[' :: [','].intercalate (entries.map Selector.render) ++ [']']
  | .slice start stop step =>
    let stepPart := if step.isSome then ':' :: renderBound step else []
    '[' :: renderBound start ++ ':' :: renderBound stop ++ stepPart ++ [']']

/-- The text of a segment by itself. -/
def Segment.display (segment : Segment) : String :=
  String.ofList (segment.render true)

/-- The text of the segments of a group. -/
def renderGroup : List Segment → List Char
  | [] => []
  | first :: rest => first.render true ++ rest.flatMap (Segment.render false)

namespace Path

/-- The characters of a path's text. -/
def renderChars (path : Path) : List Char :=
  renderGroup path.first ++ path.searches.flatMap fun group => '.' :: '.' :: renderGroup group

/-- The text of a path. -/
def render (path : Path) : String :=
  String.ofList path.renderChars

end Path

end NestedData
