import NestedData.Proofs.Access.Growing
import NestedData.Proofs.Access.Matching
import NestedData.Proofs.Access.Surviving
import NestedData.Proofs.Access.Untouched
import NestedData.Proofs.Value.Bulk

/-!
# Room for a path

An assignment makes room on its way: absent values become containers, lists are padded, and
entries are added to maps.  This module says when a value has room for a path, so that nothing
of the sort is needed wherever the path leads.  Only an entry that would have to be added does
not count, since it is taken back when nothing is put into it.

Main results:

- `Segment.picks_eq`: what a segment picks where room is made.
- `Value.MadeRoom.trans`, `Value.MadeRoom.setChild`: room for several things, and in a child.
- `Value.MadeRoom.unchanged_iff`: nothing has changed exactly if there was room.
-/

namespace NestedData

/-! ## What is picked where room is made -/

/-- The circumstances under which a miss is no fault. -/
def Selection.lenient (create : Bool) : Selection :=
  { Selection.tolerant with create }

/-- The steps that a segment picks from a container when misses are passed over; where
children are created, it picks those for which room can be made, too. -/
def Segment.picks (create : Bool) (segment : Segment) (container : Value) : List Step :=
  ((Selection.lenient create).select container segment).toOption.getD []

/-- What a segment picks is what it selects, and nothing if the selection is a fault. -/
theorem Segment.picks_eq (selection : Selection) (segment : Segment) (container : Value) :
    segment.picks selection.create container =
      (selection.select container segment).toOption.getD [] := by
  -- The two selections differ in misses, and in what becomes of a hidden field.
  have hmiss (value : Value) (obstacle : Obstacle) :
      ((Selection.lenient selection.create).miss value obstacle).toOption.getD [] =
        (selection.miss value obstacle).toOption.getD [] := by
    rw [Selection.miss_of_lenient rfl, Selection.miss]
    split <;> rfl
  have hite {reached : Prop} [Decidable reached] {step : Step}
      {first second : Except AccessError (List Step)}
      (hsame : first.toOption.getD [] = second.toOption.getD []) :
      (if reached then .ok [step] else first).toOption.getD [] =
        (if reached then .ok [step] else second).toOption.getD [] := by
    split
    · rfl
    · exact hsame
  rw [picks]
  cases container with
  | map entries =>
    cases segment with
    | key name => exact hite (hmiss _ _)
    | index position => exact hite (hmiss _ _)
    | wildcard => rfl
    | union selectors => rfl
    | slice start stop width => exact hmiss _ _
    | root => exact hmiss _ _
  | record aggregate =>
    cases segment with
    | key name =>
      simp only [Selection.select, Selection.selectInRecord]
      cases aggregate.field? name with
      | none => exact hmiss _ _
      | some field =>
        apply hite
        cases hsearching : selection.searching <;> rfl
    | wildcard => rfl
    | union selectors => rfl
    | index position => exact hmiss _ _
    | slice start stop width => exact hmiss _ _
    | root => exact hmiss _ _
  | list sequence =>
    cases segment with
    | index position =>
      apply hite
      simp only [apply_ite Except.toOption, apply_ite (Option.getD · []), hmiss]
      rfl
    | union selectors =>
      have hposition : (Selection.lenient selection.create).positionOf? sequence =
          selection.positionOf? sequence := by
        funext selector
        cases selector <;> rfl
      simp only [Selection.select, Selection.selectInList, hposition]
    | key name => exact hmiss _ _
    | _ => rfl
  | _ => exact hmiss _ _

/-- A segment that is not multi-valued picks one child at most. -/
theorem Segment.length_picks_le {segment : Segment} (hsingle : segment.isMultiValued = false)
    (create : Bool) (container : Value) : (segment.picks create container).length ≤ 1 := by
  rw [picks]
  cases hselect : (Selection.lenient create).select container segment with
  | error error => exact Nat.zero_le 1
  | ok steps => exact Selection.length_le_of_select hsingle hselect

namespace Value

/-! ## Room for a path -/

/-- What follows has room in the null that is added to a map, and no list has to be padded. -/
def HasRoomForNew (follow : Value → Prop) : Value → Step → Prop
  | .map _, .key _ => follow .null
  | .list sequence, .index _ => sequence.canGrow = false
  | _, _ => True

/-- What follows has room in the child that a step leads to, or in the one that is created. -/
def HasRoom (create : Bool) (follow : Value → Prop) (container : Value) (step : Step) : Prop :=
  match container.child? step with
  | some child => follow child
  | none => create = true → HasRoomForNew follow container step

/-- A group of segments has room in a value: something is there where containers would be
made, and wherever a segment other than the last of the path leads there is room for the
rest.  What is asked for where the group ends is `arrive`. -/
def RoomAlong (arrive : Option (Value → Prop)) (create : Bool) : List Segment → Value → Prop
  | [], value =>
    match arrive with
    | none => True
    | some arrive => arrive value
  | .root :: rest, value => RoomAlong arrive create rest value
  | segment :: rest, value =>
    (create = true → value.target.isAbsent = false) ∧
      ((arrive.isNone && rest.isEmpty) = true ∨
        ∀ step ∈ segment.picks create value.target,
          HasRoom create (RoomAlong arrive true rest) value.target step)

/-- The groups searched for have room at every place inside a value. -/
def RoomBelow : List (List Segment) → Option (Value → Prop)
  | [] => none
  | group :: rest => some fun value =>
    ∀ place ∈ value.places [], RoomAlong (RoomBelow rest) false group place.2

/-- A value has room for a path: wherever the path leads, no absent value has to become a
container and no list has to be padded on the way. -/
def HasRoomFor (root : Value) (path : Path) : Prop :=
  RoomAlong (RoomBelow path.searches) true path.first root

variable {room later : Prop} {before middle after value container child next : Value} {step : Step}

/-- Nothing has been written: with room enough the value is what it was, and otherwise there
is more in it than before. -/
structure MadeRoom (room : Prop) (before after : Value) : Prop where
  /-- What has become of the value is well-formed. -/
  wellFormed : after.WellFormed
  /-- Either there was room or it was made. -/
  exact : (room ∧ after = before) ∨ (¬room ∧ before.bulk < after.bulk)

namespace MadeRoom

theorem keep (hvalue : value.WellFormed) (hroom : room) : MadeRoom room value value :=
  ⟨hvalue, .inl ⟨hroom, rfl⟩⟩

theorem grown (hafter : after.WellFormed) (hroom : ¬room) (hmore : before.bulk < after.bulk) :
    MadeRoom room before after :=
  ⟨hafter, .inr ⟨hroom, hmore⟩⟩

/-- Nothing has changed exactly if there was room. -/
theorem unchanged_iff (hmade : MadeRoom room before after) : after = before ↔ room := by
  rcases hmade.exact with ⟨hroom, hsame⟩ | ⟨hroom, hmore⟩
  · exact iff_of_true hsame hroom
  · refine iff_of_false (fun hsame => ?_) hroom
    rw [hsame] at hmore
    exact Nat.lt_irrefl _ hmore

theorem bulk_le (hmade : MadeRoom room before after) : before.bulk ≤ after.bulk := by
  rcases hmade.exact with ⟨_, rfl⟩ | ⟨_, hmore⟩
  · exact Nat.le_refl _
  · exact Nat.le_of_lt hmore

theorem congr (hmade : MadeRoom room before after) (hsame : room ↔ later) :
    MadeRoom later before after := by
  rwa [← propext hsame]

/-- Room for two things, one after the other; whether there is room for the second matters
only if the first has left the value as it was. -/
theorem trans {other : Prop} (hfirst : MadeRoom room before middle)
    (hsecond : MadeRoom other middle after) (hlater : middle = before → (other ↔ later)) :
    MadeRoom (room ∧ later) before after := by
  rcases hfirst.exact with ⟨hroom, rfl⟩ | ⟨hroom, hmore⟩
  · exact hsecond.congr ((hlater rfl).trans (and_iff_right hroom).symm)
  · exact grown hsecond.wellFormed (fun hboth => hroom hboth.1)
      (Nat.lt_of_lt_of_le hmore hsecond.bulk_le)

/-- The child of a container has room or has been made room in. -/
theorem setChild (hcontainer : container.WellFormed) (hchild : container.child? step = some child)
    (hmade : MadeRoom room child next) :
    MadeRoom room container (container.setChild step next) := by
  have hbulk := bulk_setChild hchild next
  refine ⟨hcontainer.setChild hmade.wellFormed step, hmade.exact.imp ?_ ?_⟩
  · rintro ⟨hroom, rfl⟩
    exact ⟨hroom, setChild_self hchild⟩
  · rintro ⟨hroom, hmore⟩
    exact ⟨hroom, by omega⟩

theorem mapTarget (hmade : MadeRoom room value.target after) :
    MadeRoom room value (value.mapTarget fun _ => after) := by
  refine ⟨hmade.wellFormed.mapTarget, hmade.exact.imp ?_ ?_⟩
  · rintro ⟨hroom, rfl⟩
    exact ⟨hroom, mapTarget_eq_self rfl⟩
  · rintro ⟨hroom, hmore⟩
    exact ⟨hroom, by rwa [bulk_mapTarget, ← bulk_target value]⟩

end MadeRoom

end Value

end NestedData
