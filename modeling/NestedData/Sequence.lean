import NestedData.Value.Error

/-!
# Sequences

This module provides the row of elements inside a list value.  A sequence either grows and shrinks
or has a fixed length for life; the operations that would change the length of a fixed sequence fail
and leave it as it is.

Main results:

- `size_pad`: padding reaches the requested length or keeps a longer one.
- `size_set`, `extent_set`: replacing an element keeps the length.
-/

namespace NestedData

/-- Whether the length of a sequence may change. -/
inductive Extent
  /-- Elements may be added and removed. -/
  | growable
  /-- The length was decided once and for all. -/
  | fixed
deriving DecidableEq, Repr

/-- A row of elements. -/
structure Sequence (α : Type) where
  /-- Whether the length may change. -/
  extent : Extent := .growable
  /-- The elements, in order. -/
  items : Array α := #[]

namespace Sequence

variable {α : Type}

/-- A growable sequence of the given elements. -/
def growable (items : Array α) : Sequence α :=
  { extent := .growable, items }

/-- A sequence of the given elements that keeps its length. -/
def fixed (items : Array α) : Sequence α :=
  { extent := .fixed, items }

/-- Whether elements may be added and removed. -/
def canGrow (sequence : Sequence α) : Bool :=
  sequence.extent = .growable

/-- The number of elements. -/
def size (sequence : Sequence α) : Nat :=
  sequence.items.size

/-- The element at a position. -/
def get? (sequence : Sequence α) (index : Nat) : Option α :=
  sequence.items[index]?

/-- Replaces the element at a position, if there is one. -/
def set (sequence : Sequence α) (index : Nat) (value : α) : Sequence α :=
  { sequence with items := sequence.items.setIfInBounds index value }

/-- Adds an element at the end; a fixed sequence has no room. -/
def push (sequence : Sequence α) (value : α) : Except ValueError (Sequence α) :=
  if sequence.canGrow then .ok { sequence with items := sequence.items.push value }
  else .error (.fixedLength sequence.size)

/-- Adds the elements that `fill` gives for the missing positions below `length`, whatever the
extent. -/
def pad (sequence : Sequence α) (length : Nat) (fill : Nat → α) : Sequence α :=
  { sequence with
    items := (List.range' sequence.size (length - sequence.size)).foldl
      (fun items index => items.push (fill index)) sequence.items }

/-- Grows to `length` elements, new ones being what `fill` gives for their positions.  A sequence
that is long enough stays as it is; a fixed one has no room. -/
def growTo (sequence : Sequence α) (length : Nat) (fill : Nat → α) :
    Except ValueError (Sequence α) :=
  if length ≤ sequence.size then .ok sequence
  else if sequence.canGrow then .ok (sequence.pad length fill)
  else .error (.fixedLength sequence.size)

/-- The elements whose positions are not listed, in order. -/
def without (sequence : Sequence α) (indices : List Nat) : Array α :=
  let doomed := indices.foldl (fun marks index => marks.setIfInBounds index true)
    (Array.replicate sequence.size false)
  (sequence.items.zip doomed).filterMap fun slot => if slot.2 then none else some slot.1

/-- Removes the elements at the listed positions, each once, and gives the number removed.  A fixed
sequence keeps its elements. -/
def remove (sequence : Sequence α) (indices : List Nat) : Except ValueError (Sequence α × Nat) :=
  if sequence.canGrow then
    let items := sequence.without indices
    .ok ({ sequence with items }, sequence.size - items.size)
  else .error (.fixedLength sequence.size)

/-- The same positions with other elements. -/
def map (f : α → α) (sequence : Sequence α) : Sequence α :=
  { sequence with items := sequence.items.map f }

/-! ## Lengths -/

/-- Replacing an element keeps the length. -/
@[simp]
theorem size_set (sequence : Sequence α) (index : Nat) (value : α) :
    (sequence.set index value).size = sequence.size := by
  simp [set, size]

/-- Replacing an element keeps the extent. -/
@[simp]
theorem extent_set (sequence : Sequence α) (index : Nat) (value : α) :
    (sequence.set index value).extent = sequence.extent := rfl

/-- Padding reaches the requested length or keeps a longer one. -/
@[simp]
theorem size_pad (sequence : Sequence α) (length : Nat) (fill : Nat → α) :
    (sequence.pad length fill).size = max length sequence.size := by
  have grown (count start : Nat) (items : Array α) :
      ((List.range' start count).foldl (fun items index => items.push (fill index)) items).size =
        items.size + count := by
    induction count generalizing start items with
    | zero => simp
    | succ count ih =>
      rw [List.range'_succ, List.foldl_cons, ih, Array.size_push]
      omega
  rw [pad, size, grown]
  simp only [size]
  omega

end Sequence

end NestedData
