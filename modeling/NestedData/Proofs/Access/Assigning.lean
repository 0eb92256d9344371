import NestedData.Proofs.Access.Reselection
import NestedData.Proofs.Value.Overwriting

/-!
# What an assignment along a group leaves

This module says what it means that a value has been assigned along a group of segments:
the group can be followed without a fault, wherever it leads the value is read, the places
that it led to are still among those, and data elsewhere are what they were.  This holds
of a container if it holds of the children that were selected, and of two assignments one
after the other if it holds of both.

Main results:

- `Value.Assigned.trans`: assigning twice along a group.
- `Value.assigned_of_reworked`: a container is assigned along a group when its selected
  children are assigned along the rest of it.
-/

namespace NestedData

namespace Visit

variable {segment : Segment} {segments rest : List Segment} {value : Value} {location : Location}

/-- The segments lead from a value to a place inside it. -/
def Reaches (segments : List Segment) (value : Value) (location : Location) : Prop :=
  ∃ final, (location, final) ∈ ends segments value

theorem reaches_nil : Reaches [] value location ↔ location = [] := by
  simp [Reaches, ends_nil]

theorem reaches_target :
    Reaches segments value.target location ↔ Reaches segments value location := by
  rw [Reaches, ends_target, Reaches]

/-- The first segment takes one step to a child that it picks, and the others go on from
there. -/
theorem reaches_segment (hsegment : segment ≠ .root) :
    Reaches (segment :: rest) value location ↔
      ∃ step child later, step ∈ segment.steps value.target ∧
        value.target.child? step = some child ∧ Reaches rest child later ∧
        location = step :: later := by
  constructor
  · rintro ⟨final, hfinal⟩
    obtain ⟨step, child, later, hstep, hchild, hlater, rfl⟩ := (mem_ends_segment hsegment).mp hfinal
    exact ⟨step, child, later, hstep, hchild, ⟨final, hlater⟩, rfl⟩
  · rintro ⟨step, child, later, hstep, hchild, ⟨final, hlater⟩, rfl⟩
    exact ⟨final, (mem_ends_segment hsegment).mpr ⟨step, child, later, hstep, hchild, hlater, rfl⟩⟩

theorem Reaches.isSome_valueAt? (hreaches : Reaches segments value location) :
    (value.valueAt? location).isSome = true := by
  obtain ⟨final, hfinal⟩ := hreaches
  rw [valueAt?_of_mem_ends hfinal]
  rfl

theorem Reaches.length_eq (hroot : .root ∉ segments) (hreaches : Reaches segments value location) :
    location.length = segments.length := by
  obtain ⟨final, hfinal⟩ := hreaches
  exact length_of_mem_ends hroot hfinal

end Visit

namespace Value

open Visit

/-- A value has become another one by an assignment along a group of segments: the group
can be followed without a fault, wherever it leads the new value is read, the places that
it led to are those of them that were there, no place on the way is gone, and a datum is
what it was unless the group leads to it or above it. -/
structure Assigned (strict : Bool) (segments : List Segment) (new before after : Value) :
    Prop where
  readable : Readable strict segments after
  reads : ∀ place ∈ ends segments after, place.2 = new.target
  stays : ∀ location, Reaches segments before location ↔
    Reaches segments after location ∧ (before.valueAt? location).isSome = true
  lasts : ∀ location, location.length ≤ segments.length →
    (before.valueAt? location).isSome = true → (after.valueAt? location).isSome = true
  kept : ∀ location datum, before.valueAt? location = some datum → datum.kind.isScalar = true →
    after.valueAt? location = some datum ∨
      ∃ above, Reaches segments after above ∧ above <+: location

variable {strict : Bool} {segment : Segment} {segments rest : List Segment}
  {new before middle after : Value}

/-- Without segments, the value is written. -/
theorem assigned_nil (strict : Bool) (slot new : Value) :
    Assigned strict [] new slot (slot.assign new) where
  readable := trivial
  reads := by simp [ends_nil]
  stays := by
    intro location
    rw [reaches_nil, reaches_nil]
    refine (and_iff_left_of_imp ?_).symm
    rintro rfl
    rfl
  lasts := by
    intro location hlength _
    obtain rfl := List.length_eq_zero_iff.mp (Nat.le_zero.mp hlength)
    rfl
  kept := fun location _ _ _ => .inr ⟨[], reaches_nil.mpr rfl, List.nil_prefix⟩

/-- Assigning twice along a group. -/
theorem Assigned.trans (hroot : .root ∉ segments)
    (hfirst : Assigned strict segments new before middle)
    (hsecond : Assigned strict segments new middle after) :
    Assigned strict segments new before after where
  readable := hsecond.readable
  reads := hsecond.reads
  stays := by
    intro location
    rw [hfirst.stays, hsecond.stays, and_assoc]
    refine and_congr_right fun hreaches => and_iff_right_of_imp fun hthere => ?_
    exact hfirst.lasts location (Nat.le_of_eq (hreaches.length_eq hroot)) hthere
  lasts := by
    intro location hlength hthere
    exact hsecond.lasts location hlength (hfirst.lasts location hlength hthere)
  kept := by
    intro location datum hdatum hscalar
    rcases hfirst.kept location datum hdatum hscalar with hbetween | ⟨above, habove, hbegins⟩
    · exact hsecond.kept location datum hbetween hscalar
    · exact .inr ⟨above, ((hsecond.stays above).mp habove).1, hbegins⟩

/-- References to the start do not matter. -/
theorem assigned_target_iff :
    Assigned strict segments new before.target after.target ↔
      Assigned strict segments new before after := by
  have hsame : Readable strict segments after.target ↔ Readable strict segments after :=
    readable_target
  constructor
  · rintro ⟨hreadable, hreads, hstays, hlasts, hkept⟩
    simp only [ends_target, reaches_target, valueAt?_target] at hreads hstays hlasts hkept
    exact ⟨hsame.mp hreadable, hreads, hstays, hlasts, hkept⟩
  · rintro ⟨hreadable, hreads, hstays, hlasts, hkept⟩
    constructor
    · exact hsame.mpr hreadable
    · simpa only [ends_target] using hreads
    · simpa only [reaches_target, valueAt?_target] using hstays
    · simpa only [valueAt?_target] using hlasts
    · simpa only [reaches_target, valueAt?_target] using hkept

theorem isAbsent_of_isScalar {value : Value} (hscalar : value.kind.isScalar = true) :
    value.isAbsent = false := by
  cases value <;> first | rfl | cases hscalar

/-- Where nothing was, any assignment along segments will do. -/
theorem Assigned.of_absent {other : Value} (hsegments : segments ≠ []) (hroot : .root ∉ segments)
    (habsent : before.target.isAbsent = true) (hother : Assigned strict segments new other after) :
    Assigned strict segments new before after := by
  -- Nothing is anywhere but at the start, and segments lead away from it.
  have hnothing (location : Location) (hthere : (before.valueAt? location).isSome = true) :
      location = [] := by
    cases location with
    | nil => rfl
    | cons step later =>
      cases htarget : before.target <;> simp [valueAt?, htarget, isAbsent, child?] at hthere habsent
  have haway (value : Value) (location : Location) (hreaches : Reaches segments value location) :
      location ≠ [] := by
    rintro rfl
    exact hsegments (List.length_eq_zero_iff.mp (hreaches.length_eq hroot).symm)
  constructor
  case readable => exact hother.readable
  case reads => exact hother.reads
  case stays =>
    intro location
    constructor
    · intro hreaches
      exact absurd (hnothing location hreaches.isSome_valueAt?) (haway before location hreaches)
    · rintro ⟨hreaches, hthere⟩
      exact absurd (hnothing location hthere) (haway after location hreaches)
  case lasts =>
    intro location _ hthere
    rw [hnothing location hthere]
    rfl
  case kept =>
    intro location datum hdatum hscalar
    have hlocation := hnothing location (by rw [hdatum]; rfl)
    rw [hlocation, valueAt?] at hdatum
    rw [Option.some.inj hdatum, isAbsent_of_isScalar hscalar] at habsent
    cases habsent

/-- A container is assigned along a group when the children that the first segment selects
are assigned along the rest of it. -/
theorem assigned_of_reworked {selection : Selection} {container : Value} {steps : List Step}
    (hsegment : segment ≠ .root) (hcontainer : container.target = container)
    (hcreate : selection.create = true) (hsearching : selection.searching = false)
    (hstrict : strict = selection.strict) (hsteady : segment.SteadyOn container)
    (hselect : selection.select container segment = .ok steps)
    (hreworked : Reworked (Assigned (strict && !segment.isMultiValued) rest new) steps container
      after) :
    Assigned strict (segment :: rest) new container after := by
  have hafter : after.target = after := hreworked.grown.target_eq hcontainer
  -- The first segment picks the same children before and afterwards: those of `steps` that are
  -- there.
  have hbefore {step : Step} {child : Value} (hchild : container.child? step = some child) :
      step ∈ segment.steps container ↔ step ∈ steps :=
    Selection.mem_steps_of_grown hcreate hsteady hselect (.refl steps container)
      (by rw [hchild]; rfl)
  have hpicked {step : Step} : step ∈ segment.steps after ↔ step ∈ steps :=
    Selection.mem_steps_of_reworked hcreate hsteady hselect hreworked
  constructor
  case readable =>
    rw [readable_segment hsegment, hafter]
    refine ⟨fun operation location => ?_, fun step hstep child hchild => ?_⟩
    · exact Selection.select_of_reworked hstrict rfl hsearching hselect hreworked
    · obtain ⟨_, hchange, _⟩ := hreworked.exists_changed (hpicked.mp hstep) hchild
      exact hchange.readable
  case reads =>
    rintro ⟨location, final⟩ hplace
    obtain ⟨step, child, later, hstep, hchild, hlater, rfl⟩ := (mem_ends_segment hsegment).mp hplace
    rw [hafter] at hstep hchild
    obtain ⟨_, hchange, _⟩ := hreworked.exists_changed (hpicked.mp hstep) hchild
    exact hchange.reads (later, final) hlater
  case stays =>
    intro location
    rw [reaches_segment hsegment, reaches_segment hsegment, hcontainer, hafter]
    constructor
    · rintro ⟨step, child, later, hstep, hchild, hlater, rfl⟩
      rcases hreworked.changed_or_kept hchild with ⟨hselected, next, hnext, hchange⟩ | ⟨hother, _⟩
      · obtain ⟨hreaches, hthere⟩ := (hchange.stays later).mp hlater
        refine ⟨⟨step, next, later, hpicked.mpr hselected, hnext, hreaches, rfl⟩, ?_⟩
        rw [valueAt?, hcontainer, hchild, Option.bind_some, hthere]
      · exact absurd ((hbefore hchild).mp hstep) hother
    · rintro ⟨⟨step, next, later, hstep, hnext, hlater, rfl⟩, hthere⟩
      rw [valueAt?, hcontainer] at hthere
      cases hchild : container.child? step with
      | none => simp [hchild] at hthere
      | some child =>
        rw [hchild, Option.bind_some] at hthere
        -- What is there now has been made of what was there, as the child is no new one.
        obtain ⟨old, hchange, hold⟩ := hreworked.exists_changed (hpicked.mp hstep) hnext
        rw [hold child hchild] at hchange
        exact ⟨step, child, later, (hbefore hchild).mpr (hpicked.mp hstep), hchild,
          (hchange.stays later).mpr ⟨hlater, hthere⟩, rfl⟩
  case lasts =>
    intro location hlength hthere
    cases location with
    | nil => rfl
    | cons step later =>
      rw [valueAt?, hcontainer] at hthere
      rw [valueAt?, hafter]
      cases hchild : container.child? step with
      | none => simp [hchild] at hthere
      | some child =>
        rw [hchild, Option.bind_some] at hthere
        rcases hreworked.changed_or_kept hchild with ⟨_, next, hnext, hchange⟩ | ⟨_, hkept⟩
        · rw [hnext, Option.bind_some]
          exact hchange.lasts later (Nat.le_of_succ_le_succ hlength) hthere
        · rw [hkept, Option.bind_some, hthere]
  case kept =>
    intro location datum hdatum hscalar
    cases location with
    | nil =>
      rw [valueAt?, hcontainer] at hdatum
      obtain rfl := Option.some.inj hdatum
      rw [valueAt?, hafter, hreworked.grown.eq_of_isScalar hscalar]
      exact .inl rfl
    | cons step later =>
      rw [valueAt?, hcontainer] at hdatum
      obtain ⟨child, hchild, hlater⟩ := Option.bind_eq_some_iff.mp hdatum
      rw [valueAt?, hafter]
      rcases hreworked.changed_or_kept hchild with ⟨hselected, next, hnext, hchange⟩ | ⟨_, hkept⟩
      · rw [hnext, Option.bind_some]
        refine (hchange.kept later datum hlater hscalar).imp_right ?_
        rintro ⟨above, habove, hbegins⟩
        refine ⟨step :: above, (reaches_segment hsegment).mpr ?_, ?_⟩
        · rw [hafter]
          exact ⟨step, next, above, hpicked.mpr hselected, hnext, habove, rfl⟩
        · exact List.cons_prefix_cons.mpr ⟨rfl, hbegins⟩
      · exact .inl (by rw [hkept, Option.bind_some, hlater])

end Value

namespace Action

open Value

variable {shaping : Shaping} {segment : Segment} {segments rest : List Segment}
  {location : Location} {step : Step} {strict : Bool} {new value container : Value}

/-! ## Following a group to assign -/

/-- The edit of a child by an assignment: the child is written if no segments are left, and
they are followed from it otherwise. -/
def assignChild (shaping : Shaping) (new : Value) (location : Location) (strict : Bool)
    (rest : List Segment) (step : Step) (container : Value) : Edit :=
  if rest.isEmpty then assignMember shaping new location strict step container
  else editChild (some shaping) location (descend (assign shaping new) none false strict true rest)
    step container

/-- A segment other than the root mark selects children to edit, from a container that is
made if there is none. -/
theorem descend_assign_segment (hsegment : segment ≠ .root) (strict : Bool) (rest : List Segment)
    (location : Location) (value : Value) :
    descend (assign shaping new) none false strict true (segment :: rest) location value =
      Edit.atTarget (fun target =>
        match Selection.select
            { operation := .set, location, strict, create := true, searching := false }
            target segment with
        | .error error => .fail target error
        | .ok steps =>
          Edit.sequence steps
            (assignChild shaping new location (strict && !segment.isMultiValued) rest) {} target)
        (vivify shaping location segment value) := by
  have hchild (strict : Bool) (steps : List Step) (target : Value) :
      (if (none : Option (Location → Value → Edit)).isNone && rest.isEmpty then
          (assign shaping new).member location strict steps target
        else Edit.sequence steps (editChild (some shaping) location
          (descend (assign shaping new) none false strict true rest)) {} target) =
        Edit.sequence steps (assignChild shaping new location strict rest) {} target := by
    cases rest <;> rfl
  simp only [← hchild]
  cases segment with
  | root => exact absurd rfl hsegment
  | _ => rfl

theorem vivify_of_present (hpresent : value.target.isAbsent = false) :
    vivify shaping location segment value = value := by
  refine mapTarget_eq_self ?_
  cases htarget : value.target <;> first | rfl | simp [htarget, isAbsent] at hpresent

/-- Where nothing was, there is what the shapes ask for. -/
theorem target_vivify (habsent : value.target.isAbsent = true) :
    (vivify shaping location segment value).target =
      (shaping.containerAt location segment).target := by
  unfold vivify
  induction value using Value.induct with
  | ref referent ih =>
    rw [mapTarget, target]
    exact ih habsent
  | null => rfl
  | nilRef => rfl
  | _ => cases habsent

/-- What has been assigned at the end of the references, in a container that is made if
there is none, has been assigned. -/
theorem assigned_of_vivify {after : Value} (hsegments : segments ≠ []) (hroot : .root ∉ segments)
    (hassigned : Assigned strict segments new (vivify shaping location segment value).target
      after) :
    Assigned strict segments new value
      ((vivify shaping location segment value).mapTarget fun _ => after) := by
  have hroomy : Assigned strict segments new (vivify shaping location segment value)
      ((vivify shaping location segment value).mapTarget fun _ => after) := by
    rw [← assigned_target_iff, target_mapTarget, ← target_target]
    exact assigned_target_iff.mpr hassigned
  cases habsent : value.target.isAbsent with
  | true => exact hroomy.of_absent hsegments hroot habsent
  | false => rwa [vivify_of_present habsent] at hroomy ⊢

/-- An edit of a child that succeeds puts what becomes of the child in its place, if it
does not write a field that may not be written and something is left of the child. -/
theorem assignChild_ok {tally : Tally} (htakes : container.Takes step)
    (hwritable : strict = true ∨ container.isReadOnly step = false)
    (hleft : ∀ old, rest ≠ [] →
      (makeRoom shaping location step container).child? step = some old →
      (descend (assign shaping new) none false strict true rest (location.child step) old).result =
        .ok tally →
      (descend (assign shaping new) none false strict true rest (location.child step)
        old).value.isAbsent = false)
    (hok : (assignChild shaping new location strict rest step container).result = .ok tally) :
    ∃ old, (makeRoom shaping location step container).child? step = some old ∧
      (descend (assign shaping new) none false strict true rest (location.child step) old).result =
        .ok tally ∧
      (assignChild shaping new location strict rest step container).value =
        put shaping location step
          (descend (assign shaping new) none false strict true rest (location.child step) old).value
          container := by
  obtain ⟨old, hold⟩ := exists_child?_makeRoom shaping location htakes
  refine ⟨old, hold, ?_⟩
  cases rest with
  | nil =>
    have hmutable : container.isReadOnly step = false := by
      rcases hwritable with rfl | hmutable
      · exact isReadOnly_of_assignMember_ok htakes hok
      · exact hmutable
    have hmember := assignMember_eq_put strict new htakes hmutable hold
    simp only [assignChild, List.isEmpty_nil, if_true, hmember] at hok ⊢
    exact ⟨hok, rfl⟩
  | cons next later =>
    have hinner : (editChild (some shaping) location
        (descend (assign shaping new) none false strict true (next :: later)) step
        container).result = .ok tally := hok
    simp only [editChild, hold] at hinner
    have hput := editChild_eq_put hold (hleft old (List.cons_ne_nil _ _) hold hinner)
    exact ⟨hinner, congrArg Edit.value hput⟩

end Action

end NestedData
