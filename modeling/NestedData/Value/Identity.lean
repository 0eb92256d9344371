import NestedData.Value.Zero

/-!
# Identity of values

This module compares two values for being the same datum: the same constructor at every place, equal
scalars, the same extent of lists, the same flags of fields.  References are compared as references
and maps as sets of entries.  Numbers are compared numerically, so a value with a not-a-number inside
is not identical to itself.

Main results:

- `identical_list`, `identical_map`, `identical_record`: when two containers are identical.
-/

namespace NestedData.Value

/-- Whether two values are the same datum. -/
def identical : Value → Value → Bool
  | .null, .null => true
  | .bool left, .bool right => left == right
  | .int left, .int right => left == right
  | .float left, .float right => left.equals right
  | .text left, .text right => left == right
  | .list left, .list right =>
    left.extent == right.extent && left.size == right.size &&
      (left.items.toList.zip right.items.toList).attach.all fun pair =>
        identical pair.1.1 pair.1.2
  | .map left, .map right =>
    left.length == right.length &&
      left.attach.all fun entry =>
        match Entries.get? right entry.1.1 with
        | some other => identical entry.1.2 other
        | none => false
  | .record left, .record right =>
    left.name == right.name && left.fields.length == right.fields.length &&
      (left.fields.zip right.fields).attach.all fun pair =>
        pair.1.1.name == pair.1.2.name && pair.1.1.exported == pair.1.2.exported &&
          pair.1.1.mutable == pair.1.2.mutable && identical pair.1.1.value pair.1.2.value
  | .ref left, .ref right => identical left right
  | .nilRef, .nilRef => true
  | _, _ => false
termination_by left => left
decreasing_by
  · exact sizeOf_item_lt (Array.mem_toList_iff.1 (List.of_mem_zip pair.2).1)
  · exact sizeOf_entry_lt entry.2
  · exact sizeOf_field_lt (List.of_mem_zip pair.2).1
  · decreasing_tactic

/-- Whether a value is the zero value of its own shape. -/
def isZero (value : Value) : Bool :=
  value.identical value.zeroed

/-! ## Identity of containers -/

theorem all_attach {α : Type} (members : List α) {attached : { x // x ∈ members } → Bool}
    {test : α → Bool} (agree : ∀ member, attached member = test member.1) :
    members.attach.all attached = members.all test := by
  rw [Bool.eq_iff_iff, List.all_eq_true, List.all_eq_true]
  exact ⟨fun h x mem => agree ⟨x, mem⟩ ▸ h ⟨x, mem⟩ (List.mem_attach _ _),
    fun h x _ => agree x ▸ h x.1 x.2⟩

/-- Lists are identical when extents, lengths and elements agree. -/
theorem identical_list (left right : Sequence Value) :
    identical (.list left) (.list right) =
      (left.extent == right.extent && left.size == right.size &&
        (left.items.toList.zip right.items.toList).all fun pair =>
          identical pair.1 pair.2) := by
  rw [identical]
  exact congrArg (and _) (all_attach _ fun _ => rfl)

/-- Maps are identical when they have equally many entries and each of the left is in the right. -/
theorem identical_map (left right : Entries Value) :
    identical (.map left) (.map right) =
      (left.length == right.length && left.all fun entry =>
        match Entries.get? right entry.1 with
        | some other => identical entry.2 other
        | none => false) := by
  rw [identical]
  exact congrArg (and _) (all_attach _ fun _ => rfl)

/-- Records are identical when names and declared fields agree in order. -/
theorem identical_record (left right : Record Value) :
    identical (.record left) (.record right) =
      (left.name == right.name && left.fields.length == right.fields.length &&
        (left.fields.zip right.fields).all fun pair =>
          pair.1.name == pair.2.name && pair.1.exported == pair.2.exported &&
            pair.1.mutable == pair.2.mutable && identical pair.1.value pair.2.value) := by
  rw [identical]
  exact congrArg (and _) (all_attach _ fun _ => rfl)

end NestedData.Value
