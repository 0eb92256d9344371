import NestedData.Access.Select

/-!
# Changing values in place

This module follows a path into a value and changes what it selects.  What is done at the end of the
path is an action; the way there is the same for every action.  An action that creates makes room on the
way: absent values become containers, missing entries are added and lists are padded.  A search changes
what is inside a container before the container itself, so what has just been written is never
searched.  Changes made before a fault stay.

Main results:

- `Edit.atTarget_of_not_ref`: without references, the value itself is edited.
- `Edit.sequence_nil`: an edit without steps changes nothing.
-/

namespace NestedData

/-- What an edit has done so far. -/
structure Tally where
  /-- The number of changes made. -/
  count : Nat := 0
  /-- Whether the path selected anything. -/
  matched : Bool := false
deriving DecidableEq, Repr

/-- What two edits have done together. -/
def Tally.add (first second : Tally) : Tally :=
  { count := first.count + second.count, matched := first.matched || second.matched }

/-- One change at a place that the path selects. -/
def Tally.one : Tally :=
  { count := 1, matched := true }

/-- A place that the path selects and that is left as it is. -/
def Tally.untouched : Tally :=
  { count := 0, matched := true }

/-- The value an edit leaves behind, and what was done or why the edit ended. -/
structure Edit where
  /-- The value as it is then. -/
  value : Value
  /-- What has been done, or the fault that ended the edit. -/
  result : Except AccessError Tally

namespace Edit

variable {α : Type}

/-- The edit that leaves a value as it is. -/
def keep (value : Value) : Edit :=
  { value, result := .ok {} }

/-- The edit that leaves a selected value as it is. -/
def untouched (value : Value) : Edit :=
  { value, result := .ok .untouched }

/-- The edit that ends with a fault. -/
def fail (value : Value) (error : AccessError) : Edit :=
  { value, result := .error error }

/-- Edits the value at the end of a chain of references. -/
def atTarget (edit : Value → Edit) : Value → Edit
  | .ref referent =>
    let inner := atTarget edit referent
    { inner with value := .ref inner.value }
  | value => edit value

/-- Edits a value once for every thing in a list, up to the first fault; `tally` is what has been done
before. -/
def sequence (things : List α) (edit : α → Value → Edit) (tally : Tally) (value : Value) : Edit :=
  match things with
  | [] => { value, result := .ok tally }
  | thing :: rest =>
    match edit thing value with
    | { value, result := .error error } => { value, result := .error error }
    | { value, result := .ok done } => sequence rest edit (tally.add done) value

/-- An edit without steps changes nothing. -/
@[simp]
theorem sequence_nil (edit : α → Value → Edit) (tally : Tally) (value : Value) :
    sequence [] edit tally value = { value, result := .ok tally } := rfl

/-- An edit at the end of a chain of references is an edit of the value itself if there are none. -/
theorem atTarget_of_not_ref {edit : Value → Edit} {value : Value}
    (plain : ∀ referent, value ≠ .ref referent) : atTarget edit value = edit value := by
  cases value with
  | ref referent => exact absurd rfl (plain referent)
  | _ => rfl

end Edit

/-! ## Actions -/

/-- The shapes of what is created on the way. -/
structure Shaping where
  /-- The element that pads a list at a place. -/
  zeroAt : Location → Value
  /-- The container put at a place so that a segment can select from it. -/
  containerAt : Location → Segment → Value

/-- The shapes that a path asks for by itself: lists for positions, maps for names, null as padding. -/
def Shaping.plain : Shaping where
  zeroAt := fun _ => .null
  containerAt := fun _ segment => if segment.isIndexShaped then .ofItems #[] else .map []

/-- What is done at the end of a path. -/
structure Action where
  /-- The name under which faults are reported. -/
  operation : Operation
  /-- Whether what is missing is created on the way, and in which shapes. -/
  shaping? : Option Shaping
  /-- The change of a value that the path leads to as a whole. -/
  whole : Value → Value
  /-- The change of the child of a container that a step leads to; `strict` says that nothing on the
  way could select several places. -/
  member : (location : Location) → (strict : Bool) → List Step → Value → Edit

namespace Action

/-! ## Making room -/

/-- Replaces an absent value at the end of a chain of references by a container that a segment can
select from.  A reference to nothing is pointed at the container. -/
def vivify (shaping : Shaping) (location : Location) (segment : Segment) (value : Value) : Value :=
  value.mapTarget fun slot =>
    match slot with
    | .null => shaping.containerAt location segment
    | .nilRef => .ref (shaping.containerAt location segment)
    | slot => slot

/-- Pads a sequence that grows so that a position exists in it. -/
def padTo (shaping : Shaping) (location : Location) (position : Nat) (sequence : Sequence Value) :
    Sequence Value :=
  if sequence.canGrow then
    sequence.pad (position + 1) fun index => shaping.zeroAt (location.child (.index index))
  else sequence

/-- Makes sure that a step leads to a child: a missing entry is added as null and a list is padded. -/
def makeRoom (shaping : Shaping) (location : Location) (step : Step) (container : Value) : Value :=
  match container, step with
  | .map entries, .key name =>
    if Entries.contains entries name then .map entries
    else .map (Entries.insert entries name .null)
  | .list sequence, .index position => .list (padTo shaping location position sequence)
  | container, _ => container

/-- Whether making room for a step adds an entry. -/
def addsEntry (step : Step) (container : Value) : Bool :=
  match container, step with
  | .map entries, .key name => !Entries.contains entries name
  | _, _ => false

/-- Takes back an entry that was added to make room if nothing was written into it. -/
def takeBack (step : Step) (container : Value) : Value :=
  match container, step with
  | .map entries, .key name =>
    match Entries.get? entries name with
    | some child => if child.isAbsent then .map (Entries.erase entries name) else .map entries
    | none => .map entries
  | container, _ => container

/-! ## Following a path -/

/-- Edits the child that a step leads to, making room for it if `shaping?` is given. -/
def editChild (shaping? : Option Shaping) (location : Location)
    (edit : Location → Value → Edit) (step : Step) (container : Value) : Edit :=
  let added := shaping?.isSome && addsEntry step container
  let roomy :=
    match shaping? with
    | some shaping => makeRoom shaping location step container
    | none => container
  match roomy.child? step with
  | none => .keep roomy
  | some child =>
    let inner := edit (location.child step) child
    let edited := roomy.setChild step inner.value
    { inner with value := if added then takeBack step edited else edited }

/-- Follows the segments of a group from a place.  Without `arrive` the group is the last one and the
action is done where it ends; otherwise `arrive` is.  `searching` says that the first segment is being
searched for, `strict` that misses are faults, and `creating` that room is made at this place. -/
def descend (action : Action) (arrive : Option (Location → Value → Edit))
    (searching strict creating : Bool) : List Segment → Location → Value → Edit
  | [], location, value =>
    match arrive with
    | none => { value := action.whole value, result := .ok .one }
    | some arrive => arrive location value
  | .root :: rest, location, value =>
    descend action arrive false strict creating rest location value
  | segment :: rest, location, value =>
    let shaping? := if creating then action.shaping? else none
    let roomy :=
      match shaping? with
      | some shaping => vivify shaping location segment value
      | none => value
    roomy |> Edit.atTarget fun target =>
      let selection : Selection :=
        { operation := action.operation, location, strict, create := shaping?.isSome, searching }
      match selection.select target segment with
      | .error error => .fail target error
      | .ok steps =>
        let strict := strict && !segment.isMultiValued
        if arrive.isNone && rest.isEmpty then
          action.member location strict steps target
        else
          Edit.sequence steps
            (editChild shaping? location (descend action arrive false strict true rest)) {} target

/-- Edits everything inside a value and then the value itself, at the end of its references. -/
def throughout (edit : Location → Value → Edit) (location : Location) (value : Value) : Edit :=
  match value with
  | .ref referent =>
    let inner := throughout edit location referent
    { inner with value := .ref inner.value }
  | value =>
    let inside := Edit.sequence value.children.attach (fun child container =>
      let inner := throughout edit (location.child child.1.1) child.1.2
      { inner with value := container.setChild child.1.1 inner.value }) {} value
    match inside with
    | { value, result := .error error } => { value, result := .error error }
    | { value, result := .ok tally } =>
      let last := edit location value
      { last with result := last.result.map tally.add }
termination_by value
decreasing_by
  · decreasing_tactic
  · exact Value.sizeOf_child_lt child.2

/-- Searches for the groups one below the other and does the action at the end of the last. -/
def search (action : Action) : List (List Segment) → Option (Location → Value → Edit)
  | [] => none
  | group :: rest => some (throughout (descend action (search action rest) true false false group))

/-- Follows a path from the root and does the action at its end.  A path that selects nothing is a
fault. -/
def run (action : Action) (path : Path) (root : Value) : Value × Except AccessError Nat :=
  let edit := descend action (search action path.searches) false true true path.first [] root
  match edit.result with
  | .error error => (edit.value, .error error)
  | .ok tally =>
    if tally.matched then (edit.value, .ok tally.count)
    else (edit.value, .error
      { operation := action.operation, path, value := edit.value,
        obstacle := .lack .nothingMatched })

end Action

end NestedData
