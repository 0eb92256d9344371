import NestedData.Value.Basic

/-!
# Zero values

This module gives every value the zero value of its shape: what is left of it when it is emptied in
place.  Sequences of fixed length and records keep their shape, growable lists and maps become
empty, and references point at nothing.

Main results:

- `zeroed_zeroed`: emptying twice is emptying once.
- `kind_zeroed`: emptying keeps the kind.
-/

namespace NestedData.Value

/-- The zero value of a value's shape. -/
def zeroed : Value → Value
  | .null => .null
  | .bool _ => .bool false
  | .int _ => .int 0
  | .float _ => .float (.zero false)
  | .text _ => .text ""
  | .list { extent := .growable, .. } => .list (.growable #[])
  | .list { extent := .fixed, items } => .list (.fixed (items.map zeroed))
  | .map _ => .map []
  | .record aggregate =>
    .record { aggregate with
      fields := aggregate.fields.map fun field => { field with value := field.value.zeroed } }
  | .ref _ | .nilRef => .nilRef
termination_by value => value
decreasing_by
  · exact @sizeOf_item_lt ⟨.fixed, items⟩ _ ‹_›
  · exact sizeOf_field_lt ‹_›

/-- Emptying keeps the kind. -/
@[simp]
theorem kind_zeroed (value : Value) : value.zeroed.kind = value.kind := by
  cases value with
  | list sequence => obtain ⟨extent, items⟩ := sequence; cases extent <;> simp [zeroed, kind,
      Sequence.growable, Sequence.fixed]
  | record aggregate => simp [zeroed, kind]
  | _ => simp [zeroed, kind]

/-- Emptying twice is emptying once. -/
@[simp]
theorem zeroed_zeroed (value : Value) : value.zeroed.zeroed = value.zeroed := by
  induction value using induct with
  | list sequence ih =>
    obtain ⟨extent, items⟩ := sequence
    cases extent
    · simp [zeroed, Sequence.growable]
    · simp only [zeroed, Sequence.fixed, Array.map_map, list.injEq, Sequence.mk.injEq, true_and]
      exact Array.map_congr_left fun item mem => ih item mem
  | record aggregate ih =>
    obtain ⟨name, fields⟩ := aggregate
    simp only [zeroed, List.map_map, record.injEq, Record.mk.injEq, true_and]
    apply List.map_congr_left
    intro field mem
    simp [ih field mem]
  | _ => simp [zeroed]

end NestedData.Value
