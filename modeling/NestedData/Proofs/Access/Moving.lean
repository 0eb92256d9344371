import NestedData.Access.Assign
import NestedData.Access.Erase
import NestedData.Proofs.Access.Editing
import NestedData.Proofs.Outcome

/-!
# Changes seen from a place on the way

An action that has come to a place on its way goes on as it would if the value there were a root.  Where
it is only decides what it reports and in which shapes it creates what is missing.  This module moves an
action from a place to the root of what is stored there.

Main results:

- `Selection.select_moved`: what a segment selects does not depend on the place.
- `Action.Moved`, `Action.assign_moved`, `Action.erase_moved`: an action that is moved does the same to
  the children of a container.
- `Action.descend_moved`: and so it does along segments.
-/

namespace NestedData

open Outcome

/-- A fault at a place is a fault at the start, moved there. -/
structure AccessError.Moved (start : Location) (error other : AccessError) : Prop where
  /-- The same was being done. -/
  operation : error.operation = other.operation
  /-- The value is the same. -/
  value : error.value = other.value
  /-- The obstacle is the same. -/
  obstacle : error.obstacle = other.obstacle
  /-- The place is as far from the start. -/
  path : ∃ location : Location,
    error.path = Location.toPath (start ++ location) ∧ other.path = location.toPath

/-- Two edits that leave the same and have done the same, or met the same fault at a place that is
moved. -/
structure Edit.Moved (start : Location) (edit other : Edit) : Prop where
  /-- The same is left. -/
  value : edit.value = other.value
  /-- The same has been done. -/
  result : Agree (AccessError.Moved start) Eq edit.result other.result

/-- The shapes that are asked for below a place. -/
def Shaping.below (start : Location) (shaping : Shaping) : Shaping where
  zeroAt := fun location => shaping.zeroAt (start ++ location)
  containerAt := fun location segment => shaping.containerAt (start ++ location) segment

theorem Location.append_child (start location : Location) (step : Step) :
    Location.child (start ++ location) step = start ++ location.child step :=
  List.append_assoc ..

/-! ## Selecting -/

namespace Selection

variable (selection : Selection) (start location : Location)

theorem miss_moved (value : Value) (obstacle : Obstacle) :
    Agree (AccessError.Moved start) Eq
      ({ selection with location := start ++ location }.miss value obstacle)
      ({ selection with location }.miss value obstacle) := by
  unfold miss
  split
  · exact .error ⟨rfl, rfl, rfl, location, rfl, rfl⟩
  · exact .ok rfl

/-- What a segment selects does not depend on the place. -/
theorem select_moved (value : Value) (segment : Segment) :
    Agree (AccessError.Moved start) Eq
      ({ selection with location := start ++ location }.select value segment)
      ({ selection with location }.select value segment) := by
  have hmiss := miss_moved selection start location value
  cases value with
  | map entries =>
    have hentry (key : String) : Agree (AccessError.Moved start) Eq
        ({ selection with location := start ++ location }.selectEntry entries key)
        ({ selection with location }.selectEntry entries key) := by
      unfold selectEntry
      split
      · exact .ok rfl
      · exact hmiss _
    cases segment with
    | key name => exact hentry name
    | index position => exact hentry _
    | wildcard | union => exact .ok rfl
    | slice | root => exact hmiss _
  | record aggregate =>
    cases segment with
    | key name =>
      simp only [select, selectInRecord]
      split
      · split
        · exact .ok rfl
        · split
          · exact .ok rfl
          · exact .error ⟨rfl, rfl, rfl, location, rfl, rfl⟩
      · exact hmiss _
    | wildcard | union => exact .ok rfl
    | index | slice | root => exact hmiss _
  | list sequence =>
    cases segment with
    | index position =>
      have hreaches (place : Location) : { selection with location := place }.reaches sequence position =
          selection.reaches sequence position := rfl
      have hgrows (place : Location) : { selection with location := place }.mayGrow sequence =
          selection.mayGrow sequence := rfl
      simp only [select, selectInList]
      rw [hreaches (start ++ location), hreaches location, hgrows (start ++ location), hgrows location]
      split
      · exact .ok rfl
      · split <;> exact hmiss _
    | wildcard | union | slice | root => exact .ok rfl
    | key => exact hmiss _
  | _ => exact hmiss _

end Selection

/-! ## Edits -/

namespace Edit

variable {start : Location}

theorem Moved.ok (value : Value) (tally : Tally) :
    Moved start { value, result := .ok tally } { value, result := .ok tally } :=
  ⟨rfl, .ok rfl⟩

theorem atTarget_moved {edit other : Value → Edit}
    (hedit : ∀ value, Moved start (edit value) (other value)) (value : Value) :
    Moved start (atTarget edit value) (atTarget other value) := by
  rw [atTarget_eq, atTarget_eq, (hedit value.target).value]
  exact ⟨rfl, (hedit value.target).result⟩

/-- A sequence of edits is moved with the edits. -/
theorem sequence_moved {α : Type} {edit other : α → Value → Edit}
    (hedit : ∀ thing value, Moved start (edit thing value) (other thing value)) (things : List α)
    (tally : Tally) (value : Value) :
    Moved start (sequence things edit tally value) (sequence things other tally value) := by
  induction things generalizing tally value with
  | nil => exact .ok value tally
  | cons thing rest ih =>
    obtain ⟨hvalue, hresult⟩ := hedit thing value
    rw [sequence_cons, sequence_cons, hvalue]
    generalize (edit thing value).result = result at hresult ⊢
    generalize (other thing value).result = outcome at hresult ⊢
    cases hresult with
    | error herror => exact ⟨rfl, .error herror⟩
    | ok hdone =>
      subst hdone
      exact ih _ _

end Edit

/-! ## Actions -/

namespace Action

variable {start : Location}

/-- An action that does at the start what another does at a place. -/
structure Moved (start : Location) (action other : Action) : Prop where
  /-- Faults are reported under the same name. -/
  operation : action.operation = other.operation
  /-- What is missing is created in the shapes for the place. -/
  shaping : action.shaping?.map (Shaping.below start) = other.shaping?
  /-- Values are changed alike. -/
  whole : action.whole = other.whole
  /-- Children of containers are changed alike. -/
  member : ∀ location strict steps container,
    Edit.Moved start (action.member (start ++ location) strict steps container)
      (other.member location strict steps container)

/-- Room for a child is made in the shapes for the place. -/
theorem makeRoom_moved (shaping : Shaping) (location : Location) (step : Step) (container : Value) :
    makeRoom shaping (start ++ location) step container =
      makeRoom (shaping.below start) location step container := by
  cases container with
  | list sequence =>
    cases step with
    | key => rfl
    | index position => simp only [makeRoom, padTo, Shaping.below, Location.append_child]
  | map | record => cases step <;> rfl
  | _ => rfl

/-- The edit of a child is moved with what is done to the child. -/
theorem editChild_moved {edit other : Location → Value → Edit}
    (hedit : ∀ location value, Edit.Moved start (edit (start ++ location) value) (other location value))
    (shaping? : Option Shaping) (location : Location) (step : Step) (container : Value) :
    Edit.Moved start (editChild shaping? (start ++ location) edit step container)
      (editChild (shaping?.map (Shaping.below start)) location other step container) := by
  have hinner (child : Value) := hedit (location.child step) child
  simp only [← Location.append_child] at hinner
  cases shaping? with
  | none =>
    simp only [editChild, Option.map_none]
    split
    · exact .ok ..
    · exact ⟨by rw [(hinner _).value], (hinner _).result⟩
  | some shaping =>
    simp only [editChild, Option.map_some, makeRoom_moved]
    split
    · exact .ok ..
    · exact ⟨by rw [(hinner _).value]; rfl, (hinner _).result⟩

section Segments

variable {action other : Action} {rest : List Segment}

/-- What becomes of a container does not depend on the place if the rest of the group does not. -/
theorem onward_moved (hmoved : Moved start action other)
    (hrest : ∀ strict location value,
      Edit.Moved start (descend action none false strict true rest (start ++ location) value)
        (descend other none false strict true rest location value))
    (searching strict : Bool) (shaping? : Option Shaping) (segment : Segment) (location : Location)
    (container : Value) :
    Edit.Moved start
      (onward action none searching strict shaping? segment rest (start ++ location) container)
      (onward other none searching strict (shaping?.map (Shaping.below start)) segment rest location
        container) := by
  have hselect := Selection.select_moved
    { operation := action.operation, location, strict, create := shaping?.isSome, searching } start
    location container segment
  unfold onward
  rw [Option.isSome_map, ← hmoved.operation]
  dsimp only at hselect
  generalize Selection.select _ container segment = selected at hselect ⊢
  generalize Selection.select _ container segment = again at hselect ⊢
  cases hselect with
  | error hfaults => exact ⟨rfl, .error hfaults⟩
  | ok hsteps =>
    subst hsteps
    dsimp only
    split
    · exact hmoved.member ..
    · exact Edit.sequence_moved (fun step current => editChild_moved (hrest _) shaping? location step
        current) _ _ _

/-- Segments are followed from a place as they are from the start. -/
theorem descend_moved (hmoved : Moved start action other) (segments : List Segment)
    (searching strict creating : Bool) (location : Location) (value : Value) :
    Edit.Moved start (descend action none searching strict creating segments (start ++ location) value)
      (descend other none searching strict creating segments location value) := by
  induction segments generalizing searching strict creating location value with
  | nil =>
    rw [descend, descend, hmoved.whole]
    exact .ok ..
  | cons segment rest ih =>
    by_cases hsegment : segment = .root
    · subst hsegment
      exact ih ..
    · have hshaping : (if creating then other.shaping? else none) =
          (if creating then action.shaping? else none).map (Shaping.below start) := by
        rw [← hmoved.shaping]
        cases creating <;> rfl
      rw [descend_segment hsegment, descend_segment hsegment, hshaping]
      generalize (if creating then action.shaping? else none) = shaping?
      have hentered : entered shaping? (start ++ location) segment value =
          entered (shaping?.map (Shaping.below start)) location segment value := by
        cases shaping? <;> rfl
      rw [hentered]
      exact Edit.atTarget_moved (fun container => onward_moved hmoved
        (fun strict location value => ih false strict true location value) searching strict shaping?
        segment location container) _

end Segments

/-! ## Assigning and deleting -/

/-- The assignment to a child is moved with the shapes for the place. -/
theorem assignMember_moved (shaping : Shaping) (new : Value) (location : Location) (strict : Bool)
    (step : Step) (container : Value) :
    Edit.Moved start (assignMember shaping new (start ++ location) strict step container)
      (assignMember (shaping.below start) new location strict step container) := by
  cases container with
  | record aggregate =>
    cases step with
    | index => exact .ok ..
    | key name =>
      simp only [assignMember]
      split
      · exact .ok ..
      · split
        · exact .ok ..
        · split
          · exact ⟨rfl, .error ⟨rfl, rfl, rfl, location, rfl, rfl⟩⟩
          · exact .ok ..
  | list sequence =>
    cases step with
    | key => exact .ok ..
    | index position =>
      simp only [assignMember, padTo, Shaping.below, Location.append_child]
      split <;> exact .ok ..
  | map => cases step <;> exact .ok ..
  | _ => exact .ok ..

/-- An assignment is moved with the shapes for the place. -/
theorem assign_moved (start : Location) (shaping : Shaping) (new : Value) :
    Moved start (assign shaping new) (assign (shaping.below start) new) where
  operation := rfl
  shaping := rfl
  whole := rfl
  member location strict steps container :=
    Edit.sequence_moved (fun step current => assignMember_moved shaping new location strict step
      current) steps {} container

/-- The deletion of a child is moved. -/
theorem eraseMember_moved (location : Location) (strict : Bool) (step : Step) (container : Value) :
    Edit.Moved start (eraseMember (start ++ location) strict step container)
      (eraseMember location strict step container) := by
  cases container with
  | record aggregate =>
    cases step with
    | index => exact .ok ..
    | key name =>
      simp only [eraseMember]
      split
      · exact .ok ..
      · split
        · exact .ok ..
        · split
          · exact ⟨rfl, .error ⟨rfl, rfl, rfl, location, rfl, rfl⟩⟩
          · exact .ok ..
  | list sequence =>
    cases step with
    | key => exact .ok ..
    | index position =>
      simp only [eraseMember]
      split <;> exact .ok ..
  | map entries =>
    cases step with
    | index => exact .ok ..
    | key name =>
      simp only [eraseMember]
      split <;> exact .ok ..
  | _ => exact .ok ..

/-- A deletion is moved. -/
theorem erase_moved (start : Location) : Moved start erase erase where
  operation := rfl
  shaping := rfl
  whole := rfl
  member location strict steps container := by
    have hmember (step : Step) (current : Value) :
        Edit.Moved start (eraseMember (start ++ location) strict step current)
          (eraseMember location strict step current) :=
      eraseMember_moved location strict step current
    have hsequence := Edit.sequence_moved hmember steps {} container
    simp only [erase, eraseMembers]
    split
    · split
      · exact .ok ..
      · exact hsequence
    · exact hsequence

end Action

end NestedData
