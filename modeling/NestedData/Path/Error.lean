/-!
# Faults in the text of a path

This module lists what can be wrong with the text of a path and words the messages about it.
-/

namespace NestedData

/-- What is wrong with one segment of a path. -/
inductive SegmentFault
  /-- Nothing follows the two dots of a search. -/
  | searchWithoutTarget
  /-- Two dots of a group have nothing between them. -/
  | emptySegment
  /-- Text follows a closing bracket directly. -/
  | textAfterBracket
  /-- The root mark stands elsewhere than at the start. -/
  | rootNotFirst
  /-- A bare name holds a character that has to be quoted. -/
  | needsQuotes
  /-- Nothing stands between two brackets. -/
  | emptySelector
  /-- An entry of a union is neither a quoted name nor a position. -/
  | badUnionEntry
  /-- A quoted name does not end with its quote. -/
  | malformedName
  /-- A slice has more than three parts. -/
  | tooManyParts
  /-- A part of a slice is not an integer. -/
  | badBound
  /-- A position is negative. -/
  | negativeIndex
  /-- The text between two brackets is no selector at all. -/
  | unknownSelector
deriving DecidableEq, Repr

/-- The wording of a fault. -/
def SegmentFault.message : SegmentFault → String
  | .searchWithoutTarget => "recursive descent needs a target"
  | .emptySegment => "empty segment"
  | .textAfterBracket => "unexpected text after ']'"
  | .rootNotFirst => "'$' may only start a path"
  | .needsQuotes => "keys containing quotes, spaces or brackets must use ['...'] notation"
  | .emptySelector => "empty selector"
  | .badUnionEntry => "union entries must be quoted keys or indices"
  | .malformedName => "malformed quoted key"
  | .tooManyParts => "a slice has at most three parts"
  | .badBound => "slice bounds must be integers"
  | .negativeIndex => "negative index; use a slice such as [-1:]"
  | .unknownSelector => "expected an index, slice, union, '*' or quoted key"

/-- What is wrong with the text of a path. -/
inductive PathFault
  /-- A segment, given as it is written, is malformed. -/
  | segment (text : String) (fault : SegmentFault)
  /-- A bracket or quote lacks its partner. -/
  | unbalanced (delimiter : Char)
deriving DecidableEq, Repr

/-- A text that is not a path. -/
structure PathError where
  /-- The whole text. -/
  path : String
  /-- What is wrong with it. -/
  fault : PathFault
deriving DecidableEq, Repr

/-- The message about a text that is not a path. -/
def PathError.message (error : PathError) : String :=
  match error.fault with
  | .segment text fault =>
    "Invalid path segment '" ++ text ++ "' in '" ++ error.path ++ "': " ++ fault.message
  | .unbalanced delimiter =>
    "Unbalanced '" ++ delimiter.toString ++ "' in path '" ++ error.path ++ "'"

end NestedData
