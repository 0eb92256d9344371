import NestedData.Path.Basic

/-!
# Slices

This module resolves the bounds of a slice against the length of a list.  A negative bound counts
from the end, bounds outside the list are moved to its ends, and a step that is not positive counts
as one.  Lengths beyond the largest signed 64-bit integer count as that integer.

Main results:

- `mem_sliceIndices_iff`: a position is selected exactly when it lies between the resolved bounds, a
  whole number of steps from the first.
- `sliceIndices_lt_length`: no position at or beyond the length is selected.
-/

namespace NestedData

/-- The length that a list counts as. -/
def countedLength (length : Nat) : Nat :=
  min length 0x7fffffffffffffff

/-- The position a bound stands for in a list of a given length. -/
def resolveBound (length : Nat) (bound : Int64) : Nat :=
  let position := bound.toInt
  (if position < 0 then max (length + position) 0 else min position length).toNat

/-- The first position of a slice, before it is compared with the end. -/
def sliceStart (start : Option Int64) (length : Nat) : Nat :=
  (start.map (resolveBound length)).getD 0

/-- The position at which a slice ends. -/
def sliceStop (stop : Option Int64) (length : Nat) : Nat :=
  (stop.map (resolveBound length)).getD length

/-- How far the positions of a slice lie apart. -/
def sliceStep (step : Option Int64) : Nat :=
  match step with
  | some step => if 0 < step.toInt then step.toInt.toNat else 1
  | none => 1

/-- The positions that a slice selects from a list of a given length, in ascending order. -/
def sliceIndices (start stop step : Option Int64) (length : Nat) : List Nat :=
  let counted := countedLength length
  let low := sliceStart start counted
  let high := sliceStop stop counted
  let width := sliceStep step
  List.range' low ((high - low + (width - 1)) / width) width

/-- The positions that a segment selects as a slice, if it is one. -/
def Segment.sliceIndices? (segment : Segment) (length : Nat) : Option (List Nat) :=
  match segment with
  | .slice start stop step => some (sliceIndices start stop step length)
  | _ => none

/-! ## What a slice selects -/

theorem sliceStep_pos (step : Option Int64) : 0 < sliceStep step := by
  unfold sliceStep
  split
  · split <;> omega
  · omega

theorem sliceStop_le (stop : Option Int64) (length : Nat) : sliceStop stop length ≤ length := by
  unfold sliceStop resolveBound
  cases stop with
  | none => simp
  | some bound =>
    simp only [Option.map_some, Option.getD_some]
    split <;> omega

/-- A position is selected exactly when it lies between the resolved bounds, a whole number of steps
from the first. -/
theorem mem_sliceIndices_iff {start stop step : Option Int64} {length position : Nat} :
    position ∈ sliceIndices start stop step length ↔
      sliceStart start (countedLength length) ≤ position ∧
      position < sliceStop stop (countedLength length) ∧
      sliceStep step ∣ position - sliceStart start (countedLength length) := by
  have positive := sliceStep_pos step
  simp only [sliceIndices, List.mem_range']
  generalize sliceStart start (countedLength length) = low
  generalize sliceStop stop (countedLength length) = high
  generalize sliceStep step = width at *
  constructor
  · rintro ⟨count, bounded, rfl⟩
    refine ⟨by omega, ?_, count, by omega⟩
    have : width * (count + 1) ≤ high - low + (width - 1) :=
      Nat.le_trans (Nat.mul_le_mul_left _ bounded) (Nat.mul_div_le _ _)
    rw [Nat.mul_succ] at this
    omega
  · rintro ⟨above, below, count, distance⟩
    refine ⟨count, ?_, by omega⟩
    rw [Nat.lt_iff_add_one_le, Nat.le_div_iff_mul_le positive, Nat.add_mul, Nat.mul_comm count]
    omega

/-- No position at or beyond the length is selected. -/
theorem sliceIndices_lt_length {start stop step : Option Int64} {length position : Nat}
    (selected : position ∈ sliceIndices start stop step length) : position < length := by
  have below := (mem_sliceIndices_iff.1 selected).2.1
  exact Nat.lt_of_lt_of_le below (Nat.le_trans (sliceStop_le stop _) (Nat.min_le_left ..))

end NestedData
