/-!
# Paths

This module defines paths into nested data.  A path is a group of segments that applies to the root,
followed by any number of searches: groups whose first segment is looked for at every place below the
locations reached so far.  The meaning of a segment is fixed by the path alone; to which values it
applies is decided when the path is followed.
-/

namespace NestedData

/-- One entry of a union: a name or a position. -/
inductive Selector
  /-- The child of a name. -/
  | key (name : String)
  /-- The child at a position. -/
  | index (position : Nat)
deriving DecidableEq, Repr

/-- Whether the entry is a position. -/
def Selector.isIndex : Selector → Bool
  | .index _ => true
  | .key _ => false

/-- One segment of a path. -/
inductive Segment
  /-- The mark for the root, which selects nothing by itself. -/
  | root
  /-- The child of a name. -/
  | key (name : String)
  /-- Every child. -/
  | wildcard
  /-- The element at a position, or the entry under the position written in decimal. -/
  | index (position : Nat)
  /-- The listed children, in the listed order. -/
  | union (entries : List Selector)
  /-- The elements from `start` up to `stop`, every `step`-th.  A negative bound counts from the
  end, an absent one means the whole, and a step that is not positive counts as one. -/
  | slice (start stop step : Option Int64)
deriving DecidableEq, Repr

namespace Segment

/-- Whether the segment can select children of maps or records. -/
def appliesToAssociative : Segment → Bool
  | .key _ | .wildcard | .index _ | .union _ => true
  | .root | .slice .. => false

/-- Whether the segment can select elements of lists. -/
def appliesToLinear : Segment → Bool
  | .wildcard | .index _ | .slice .. => true
  | .union entries => entries.any Selector.isIndex
  | .root | .key _ => false

/-- Whether the segment may select more than one child. -/
def isMultiValued : Segment → Bool
  | .wildcard | .union _ | .slice .. => true
  | _ => false

/-- Whether the segment asks for a list where a container has to be made. -/
def isIndexShaped : Segment → Bool
  | .index _ | .slice .. => true
  | .union entries => !entries.isEmpty && entries.all Selector.isIndex
  | _ => false

end Segment

/-- A path: segments that apply to the root, then the groups of its searches. -/
structure Path where
  /-- The segments that apply to the root. -/
  first : List Segment := []
  /-- The groups searched for, in order. -/
  searches : List (List Segment) := []
deriving DecidableEq, Repr

namespace Path

/-- The path of the root mark alone. -/
def root : Path :=
  { first := [.root] }

/-- The path with the given groups; without any it is the empty path. -/
def ofGroups : List (List Segment) → Path
  | [] => {}
  | first :: searches => { first, searches }

/-- The groups of the path: the segments that apply to the root and the groups of its searches. -/
def groups (path : Path) : List (List Segment) :=
  path.first :: path.searches

/-- All segments, in order. -/
def segments (path : Path) : List Segment :=
  path.groups.flatten

/-- Whether the path denotes the root itself. -/
def isRoot (path : Path) : Bool :=
  path.searches.isEmpty && path.first.all (· == .root)

/-- Whether the path contains a search. -/
def isRecursive (path : Path) : Bool :=
  !path.searches.isEmpty

/-- Whether the path may match more than one location. -/
def isMultiValued (path : Path) : Bool :=
  path.isRecursive || path.groups.any fun group => group.any Segment.isMultiValued

/-! ## Building paths -/

/-- A list with its last member changed. -/
def modifyLast {α : Type} (f : α → α) : List α → List α
  | [] => []
  | [last] => [f last]
  | head :: next :: rest => head :: modifyLast f (next :: rest)

/-- The path with a segment added at the end. -/
def push (path : Path) (segment : Segment) : Path :=
  if path.searches.isEmpty then { path with first := path.first ++ [segment] }
  else { path with searches := modifyLast (· ++ [segment]) path.searches }

/-- The path to the child of a name. -/
def key (path : Path) (name : String) : Path :=
  path.push (.key name)

/-- The path to the child at a position. -/
def index (path : Path) (position : Nat) : Path :=
  path.push (.index position)

/-- The path to every child. -/
def wildcard (path : Path) : Path :=
  path.push .wildcard

/-- The path that goes on to search for children of a name. -/
def descend (path : Path) (name : String) : Path :=
  { path with searches := path.searches ++ [[.key name]] }

end Path

end NestedData
