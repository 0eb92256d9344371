import NestedData.Binary64.Rounding
import NestedData.Value.Identity

/-!
# Structural comparison

This module compares values by structure.  References are followed on both sides and absent values are
equal; maps are compared as sets of entries; lists must agree in extent and records in the names of
their types and declared fields, hidden ones included.  A comparison may allow a tolerance between
numbers and may replace the rule for a kind or for one type of records.

Main results:

- `agree_ref_left`: references on the left are followed.
-/

namespace NestedData

/-- A rule that decides whether two values agree. -/
abbrev Rule := Value → Value → Bool

/-- How values are compared. -/
structure Comparison where
  /-- How far apart two numbers may be; without a tolerance they must be equal. -/
  tolerance : Option Binary64 := none
  /-- The rules that replace the usual one for values of a kind. -/
  kindRule? : Kind → Option Rule := fun _ => none
  /-- The rules that replace the usual one for records of a type. -/
  recordRule? : String → Option Rule := fun _ => none

namespace Comparison

/-- The comparison without tolerance and without replaced rules. -/
def plain : Comparison := {}

/-- The rule for two records of one type, if it is replaced. -/
def sharedRecordRule? (comparison : Comparison) (left right : Value) : Option Rule :=
  match left, right with
  | .record left, .record right =>
    if left.name = right.name then comparison.recordRule? left.name else none
  | _, _ => none

/-- The replaced rule that decides about two values: one for the type of two records before one for a
shared kind. -/
def ruleFor? (comparison : Comparison) (left right : Value) : Option Rule :=
  (comparison.sharedRecordRule? left right).or
    (if left.kind = right.kind then comparison.kindRule? left.kind else none)

/-- Whether two numbers agree. -/
def numbersAgree (comparison : Comparison) (left right : Binary64) : Bool :=
  match comparison.tolerance with
  | some tolerance => (left.sub right).abs.atMost tolerance
  | none => left.equals right

/-- Whether two values agree. -/
def agree (comparison : Comparison) (left right : Value) : Bool :=
  match left, right with
  | .ref left, right => agree comparison left right
  | left, .ref right => agree comparison left right
  | left, right =>
    match comparison.ruleFor? left right with
    | some rule => rule left right
    | none =>
      match left, right with
      | .bool left, .bool right => left == right
      | .int left, .int right => left == right
      | .float left, .float right => comparison.numbersAgree left right
      | .text left, .text right => left == right
      | .list left, .list right =>
        left.extent == right.extent && left.size == right.size &&
          (left.items.toList.zip right.items.toList).attach.all fun pair =>
            agree comparison pair.1.1 pair.1.2
      | .map left, .map right =>
        left.length == right.length &&
          left.attach.all fun entry =>
            match Entries.get? right entry.1.1 with
            | some other => agree comparison entry.1.2 other
            | none => false
      | .record left, .record right =>
        left.name == right.name && left.fields.length == right.fields.length &&
          (left.fields.zip right.fields).attach.all fun pair =>
            pair.1.1.name == pair.1.2.name && pair.1.1.exported == pair.1.2.exported &&
              agree comparison pair.1.1.value pair.1.2.value
      | left, right => left.isAbsent && right.isAbsent
termination_by (sizeOf left, sizeOf right)
decreasing_by
  · exact Prod.Lex.left _ _ (by simp)
  · exact Prod.Lex.right _ (by simp)
  · exact Prod.Lex.left _ _
      (Value.sizeOf_item_lt (Array.mem_toList_iff.1 (List.of_mem_zip pair.2).1))
  · exact Prod.Lex.left _ _ (Value.sizeOf_entry_lt entry.2)
  · exact Prod.Lex.left _ _ (Value.sizeOf_field_lt (List.of_mem_zip pair.2).1)

/-- References on the left are followed. -/
@[simp]
theorem agree_ref_left (comparison : Comparison) (left right : Value) :
    comparison.agree (.ref left) right = comparison.agree left right := by
  rw [agree]

end Comparison

end NestedData
