import NestedData.Access.Edit
import NestedData.Proofs.Value.Places

/-!
# Edits in sequence and through references

This module takes edits apart: an edit at the end of references, a sequence of edits,
and an edit of everything inside a value consist of edits of single containers.

Main results:

- `Edit.atTarget_eq`: an edit at the end of references is an edit of what stands there.
- `Edit.sequence_cons_ok`: a sequence that succeeds begins with an edit that does.
- `Edit.sequence_preserves`: what every edit preserves, a sequence of them does.
- `Action.throughout_eq`: editing everything inside a value is editing the children of
  the container at the end of its references, and then the container.
- `Action.descend_segment`, `Action.onward_cases`: what becomes of a value from which a
  segment selects.
-/

namespace NestedData

theorem Tally.empty_add (tally : Tally) : Tally.add {} tally = tally := by
  simp [add]

namespace Edit

variable {α : Type} {edit : α → Value → Edit} {thing : α} {rest : List α} {before tally : Tally}
  {value : Value}

/-- An edit at the end of references is an edit of what stands there. -/
theorem atTarget_eq (edit : Value → Edit) (value : Value) :
    atTarget edit value =
      { value := value.mapTarget fun _ => (edit value.target).value
        result := (edit value.target).result } := by
  induction value using Value.induct with
  | ref referent ih => rw [atTarget, ih, Value.mapTarget, Value.target]
  | _ => rfl

/-- The head of a sequence is edited first, and its fault ends the sequence. -/
theorem sequence_cons :
    sequence (thing :: rest) edit before value =
      match (edit thing value).result with
      | .error error => { value := (edit thing value).value, result := .error error }
      | .ok done => sequence rest edit (before.add done) (edit thing value).value := by
  rw [sequence]
  rcases edit thing value with ⟨edited, result⟩
  cases result <;> rfl

theorem sequence_singleton (thing : α) (edit : α → Value → Edit) (value : Value) :
    sequence [thing] edit {} value = edit thing value := by
  rw [sequence_cons]
  rcases edit thing value with ⟨edited, result⟩
  cases result with
  | error error => rfl
  | ok done => simp [Tally.add]

/-- A sequence that succeeds begins with an edit that does. -/
theorem sequence_cons_ok
    (hok : (sequence (thing :: rest) edit before value).result = .ok tally) :
    ∃ done, (edit thing value).result = .ok done ∧
      sequence (thing :: rest) edit before value =
        sequence rest edit (before.add done) (edit thing value).value := by
  rw [sequence_cons] at hok ⊢
  cases hresult : (edit thing value).result with
  | error error =>
    rw [hresult] at hok
    cases hok
  | ok done => exact ⟨done, rfl, rfl⟩

/-- What every edit of a sequence preserves holds afterwards, whether or not a fault ends
the sequence. -/
theorem sequence_preserves {invariant : Value → Prop} {things : List α}
    (hedit : ∀ thing ∈ things, ∀ current, invariant current →
      invariant (edit thing current).value)
    (hvalue : invariant value) (before : Tally) :
    invariant (sequence things edit before value).value := by
  induction things generalizing value before with
  | nil => exact hvalue
  | cons thing rest ih =>
    have hfirst := hedit thing List.mem_cons_self value hvalue
    rw [sequence_cons]
    cases (edit thing value).result with
    | error error => exact hfirst
    | ok done =>
      exact ih (fun other hother => hedit other (List.mem_cons_of_mem _ hother)) hfirst _

/-- A sequence over things made of other things is a sequence over these. -/
theorem sequence_map {β : Type} (f : β → α) (things : List β) (edit : α → Value → Edit)
    (before : Tally) (value : Value) :
    sequence (things.map f) edit before value =
      sequence things (fun thing => edit (f thing)) before value := by
  induction things generalizing before value with
  | nil => rfl
  | cons thing rest ih =>
    rw [List.map_cons, sequence_cons, sequence_cons]
    simp only [ih]

end Edit

namespace Action

/-- The edit of everything inside a container: its children, one after the other, and
then the container itself. -/
def throughoutContainer (edit : Location → Value → Edit) (location : Location)
    (container : Value) : Edit :=
  let inside := Edit.sequence container.children (fun child container =>
    let inner := throughout edit (location.child child.1) child.2
    { inner with value := container.setChild child.1 inner.value }) {} container
  match inside.result with
  | .error error => { value := inside.value, result := .error error }
  | .ok tally =>
    let last := edit location inside.value
    { last with result := last.result.map tally.add }

/-- Editing everything inside a value is editing it at the end of its references. -/
theorem throughout_eq (edit : Location → Value → Edit) (location : Location) (value : Value) :
    throughout edit location value =
      Edit.atTarget (throughoutContainer edit location) value := by
  have hplain (value : Value) (hvalue : ∀ referent, value ≠ .ref referent) :
      throughout edit location value = throughoutContainer edit location value := by
    rw [throughout, throughoutContainer]
    · rw [← List.attach_map_subtype_val value.children, Edit.sequence_map,
        List.attach_map_subtype_val]
      rcases Edit.sequence value.children.attach _ {} value with ⟨inside, result⟩
      cases result <;> rfl
    · exact hvalue
  induction value using Value.induct with
  | ref referent ih => rw [throughout, ih, Edit.atTarget]
  | _ => exact hplain _ (by simp)

theorem descend_of_first {action : Action} {first segments : List Segment}
    (hfirst : first = segments ∨ first = .root :: segments)
    (arrive : Option (Location → Value → Edit)) (strict creating : Bool) (location : Location)
    (value : Value) :
    descend action arrive false strict creating first location value =
      descend action arrive false strict creating segments location value := by
  rcases hfirst with rfl | rfl <;> rfl

/-! ## One segment of a group -/

/-- The value from which a segment selects, with a container in place of nothing where
containers are made. -/
def entered (shaping? : Option Shaping) (location : Location) (segment : Segment)
    (value : Value) : Value :=
  match shaping? with
  | some shaping => vivify shaping location segment value
  | none => value

/-- What becomes of a container from which a segment selects when the rest of the group
goes on in its children. -/
def onward (action : Action) (arrive : Option (Location → Value → Edit))
    (searching strict : Bool) (shaping? : Option Shaping) (segment : Segment)
    (rest : List Segment) (location : Location) (container : Value) : Edit :=
  match Selection.select
      { operation := action.operation, location, strict, create := shaping?.isSome, searching }
      container segment with
  | .error error => .fail container error
  | .ok steps =>
    if arrive.isNone && rest.isEmpty then
      action.member location (strict && !segment.isMultiValued) steps container
    else
      Edit.sequence steps (editChild shaping? location
        (descend action arrive false (strict && !segment.isMultiValued) true rest)) {} container

section Segments

variable {action : Action} {arrive : Option (Location → Value → Edit)} {searching strict : Bool}
  {shaping? : Option Shaping} {segment : Segment} {rest : List Segment} {location : Location}
  {container : Value}

/-- A segment selects at the end of the references of the value it comes to. -/
theorem descend_segment (hsegment : segment ≠ .root) (creating : Bool) (value : Value) :
    descend action arrive searching strict creating (segment :: rest) location value =
      Edit.atTarget
        (onward action arrive searching strict (if creating then action.shaping? else none)
          segment rest location)
        (entered (if creating then action.shaping? else none) location segment value) := by
  cases segment with
  | root => exact absurd rfl hsegment
  | _ => rfl

/-- The selection is a fault, or the group ends with it, or the rest of the group goes on
in the selected children. -/
theorem onward_cases :
    (∃ error, Selection.select
        { operation := action.operation, location, strict, create := shaping?.isSome, searching }
        container segment = .error error ∧
      onward action arrive searching strict shaping? segment rest location container =
        .fail container error) ∨
    ∃ steps, Selection.select
        { operation := action.operation, location, strict, create := shaping?.isSome, searching }
        container segment = .ok steps ∧
      ((arrive = none ∧ rest = [] ∧
        onward action arrive searching strict shaping? segment rest location container =
          action.member location (strict && !segment.isMultiValued) steps container) ∨
      ((arrive.isNone && rest.isEmpty) = false ∧
        onward action arrive searching strict shaping? segment rest location container =
          Edit.sequence steps (editChild shaping? location
            (descend action arrive false (strict && !segment.isMultiValued) true rest))
            {} container)) := by
  unfold onward
  cases Selection.select
      { operation := action.operation, location, strict, create := shaping?.isSome, searching }
      container segment with
  | error error => exact .inl ⟨error, rfl, rfl⟩
  | ok steps =>
    refine .inr ⟨steps, rfl, ?_⟩
    dsimp only
    split
    · rename_i hlast
      rw [Bool.and_eq_true, Option.isNone_iff_eq_none, List.isEmpty_iff] at hlast
      exact .inl ⟨hlast.1, hlast.2, rfl⟩
    · rename_i hmore
      exact .inr ⟨eq_false_of_ne_true hmore, rfl⟩

end Segments

end Action

end NestedData
