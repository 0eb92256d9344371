import NestedData.Proofs.Access.Untouched
import NestedData.Proofs.Access.Visits

/-!
# What the segments of one group reach

This module describes the places that a group of segments reaches when nothing is
searched for after it: one step for every segment, taken to a child that the segment
picks.  It also says when following the group meets no fault.

Main results:

- `Visit.mem_reach_segment`: the first segment takes one step, the others go on from there.
- `Visit.valueAt?_of_mem_ends`: a place that is reached holds what it is reached with.
- `Visit.descend_of_readable`: where no segment meets a fault, all places reached are
  collected.
- `Visit.exists_ends_of_single`: a group that selects one child at a time, and meets no
  fault, reaches exactly one place.
-/

namespace NestedData

namespace Visit

variable {σ : Type} {segment : Segment} {segments rest : List Segment} {value : Value}

/-- The first segment takes one step to a child that it picks, and the others go on from
there. -/
theorem mem_reach_segment {arrive : Value → Trace} {location : Location} {final : Value}
    (hsegment : segment ≠ .root) :
    (location, final) ∈ reach arrive (segment :: rest) value ↔
      ∃ step child later, step ∈ segment.steps value.target ∧
        value.target.child? step = some child ∧ (later, final) ∈ reach arrive rest child ∧
        location = step :: later := by
  rw [reach_segment hsegment, List.mem_flatMap]
  constructor
  · rintro ⟨step, hstep, hmem⟩
    cases hchild : value.target.child? step with
    | none => simp [hchild] at hmem
    | some child =>
      rw [hchild] at hmem
      rcases List.mem_map.mp hmem with ⟨⟨later, other⟩, hlater, hsame⟩
      cases hsame
      exact ⟨step, child, later, hstep, hchild, hlater, rfl⟩
  · rintro ⟨step, child, later, hstep, hchild, hlater, rfl⟩
    refine ⟨step, hstep, ?_⟩
    rw [hchild]
    exact List.mem_map.mpr ⟨(later, final), hlater, rfl⟩

/-! ## Places at the end of a group -/

/-- The places that a group reaches when nothing is searched for after it. -/
def ends (segments : List Segment) (value : Value) : Trace :=
  reach (found []) segments value

theorem ends_nil (value : Value) : ends [] value = [([], value.target)] := rfl

@[simp]
theorem ends_target (segments : List Segment) (value : Value) :
    ends segments value.target = ends segments value :=
  reach_target _ segments value

/-- The first segment takes one step to a child that it picks, and the others go on from
there. -/
theorem mem_ends_segment {location : Location} {final : Value} (hsegment : segment ≠ .root) :
    (location, final) ∈ ends (segment :: rest) value ↔
      ∃ step child later, step ∈ segment.steps value.target ∧
        value.target.child? step = some child ∧ (later, final) ∈ ends rest child ∧
        location = step :: later :=
  mem_reach_segment hsegment

/-- A place that is reached holds what it is reached with. -/
theorem valueAt?_of_mem_ends {location : Location} {final : Value}
    (hplace : (location, final) ∈ ends segments value) :
    value.valueAt? location = some final := by
  induction segments generalizing value location with
  | nil =>
    cases List.mem_singleton.mp hplace
    rfl
  | cons segment rest ih =>
    by_cases hsegment : segment = .root
    · subst hsegment
      exact ih hplace
    · obtain ⟨step, child, later, _, hchild, hlater, rfl⟩ := (mem_ends_segment hsegment).mp hplace
      rw [Value.valueAt?, hchild, Option.bind_some, ih hlater]

/-- Without the root mark, there is a step for every segment. -/
theorem length_of_mem_ends (hroot : .root ∉ segments) {location : Location} {final : Value}
    (hplace : (location, final) ∈ ends segments value) : location.length = segments.length := by
  induction segments generalizing value location with
  | nil =>
    cases List.mem_singleton.mp hplace
    rfl
  | cons segment rest ih =>
    rw [List.mem_cons, not_or] at hroot
    obtain ⟨step, child, later, _, _, hlater, rfl⟩ :=
      (mem_ends_segment (Ne.symm hroot.1)).mp hplace
    rw [List.length_cons, List.length_cons, ih hroot.2 hlater]

/-! ## Following a group without a fault -/

/-- Following the segments meets no fault, if a miss is one where `strict` says so. -/
def Readable (strict : Bool) : List Segment → Value → Prop
  | [], _ => True
  | .root :: rest, value => Readable strict rest value
  | segment :: rest, value =>
    (∀ operation location, Selection.select
        { operation, location, strict, create := false, searching := false }
        value.target segment = .ok (segment.steps value.target)) ∧
      ∀ step ∈ segment.steps value.target, ∀ child, value.target.child? step = some child →
        Readable (strict && !segment.isMultiValued) rest child

/-- A segment other than the root mark meets no fault if selecting does not and what
follows does not from any child that it picks. -/
theorem readable_segment {strict : Bool} (hsegment : segment ≠ .root) :
    Readable strict (segment :: rest) value ↔
      (∀ operation location, Selection.select
          { operation, location, strict, create := false, searching := false }
          value.target segment = .ok (segment.steps value.target)) ∧
        ∀ step ∈ segment.steps value.target, ∀ child, value.target.child? step = some child →
          Readable (strict && !segment.isMultiValued) rest child := by
  cases segment with
  | root => exact absurd rfl hsegment
  | _ => rfl

/-- References to the start do not matter. -/
theorem readable_target {strict : Bool} :
    Readable strict segments value.target ↔ Readable strict segments value := by
  induction segments generalizing value with
  | nil => exact Iff.rfl
  | cons segment rest ih =>
    by_cases hsegment : segment = .root
    · subst hsegment
      exact ih
    · rw [readable_segment hsegment, readable_segment hsegment, Value.target_target]

/-- Going through things that are each a fold without a fault is a fold over the whole. -/
theorem through_running {α : Type} {f : σ → Location × Value → σ} {things : List α}
    {visit : α → σ → Progress σ} (trace : α → Trace)
    (hvisit : ∀ thing ∈ things, ∀ collected,
      visit thing collected = .running ((trace thing).foldl f collected)) (collected : σ) :
    Progress.through things visit collected =
      .running ((things.flatMap trace).foldl f collected) := by
  induction things generalizing collected with
  | nil => rfl
  | cons thing rest ih =>
    rw [Progress.through_cons, hvisit thing List.mem_cons_self, Progress.andThen_running,
      ih fun other hother => hvisit other (List.mem_cons_of_mem _ hother), List.flatMap_cons,
      List.foldl_append]

/-- Where no segment meets a fault, all places reached are collected. -/
theorem descend_of_readable {f : σ → Location × Value → σ} {arrive : Arrival σ}
    (harrive : ∀ location value collected, arrive location value collected =
      .running (f collected (location, value))) {strict : Bool} (operation : Operation)
    (hreadable : Readable strict segments value) (location : Location) (collected : σ) :
    descend operation arrive false strict segments location value collected =
      .running (((ends segments value).map location.below).foldl f collected) := by
  induction segments generalizing strict value location collected with
  | nil => simp [descend, harrive, ends_nil, Location.below]
  | cons segment rest ih =>
    by_cases hsegment : segment = .root
    · subst hsegment
      exact ih hreadable location collected
    · rw [readable_segment hsegment] at hreadable
      rw [descend_segment hsegment, hreadable.1, ends, reach_segment hsegment, List.map_flatMap]
      refine through_running _ (fun step hstep collected => ?_) collected
      rw [List.map_map, Location.below_below]
      cases hchild : value.target.child? step with
      | none => rfl
      | some child =>
        exact ih (hreadable.2 step hstep child hchild) (location.child step) collected

/-! ## Groups that select one child at a time -/

/-- A strict selection by a segment that is neither multi-valued nor searched for picks one
child, which is there if nothing is created. -/
theorem exists_step_of_single {selection : Selection} {container : Value} {steps : List Step}
    (hstrict : selection.strict = true) (hsearching : selection.searching = false)
    (hsegment : segment ≠ .root)
    (hsingle : segment.isMultiValued = false)
    (hselect : selection.select container segment = .ok steps) :
    ∃ step, steps = [step] ∧
      (selection.create = false → (container.child? step).isSome = true) := by
  rcases Selection.cases_of_single hsingle hselect with
    ⟨step, hsteps, _, hpresent⟩ | ⟨_, hroot | hlenient | hsearched⟩
  · exact ⟨step, hsteps, hpresent⟩
  · exact absurd hroot hsegment
  · rw [hstrict] at hlenient
    cases hlenient
  · rw [hsearching] at hsearched
    cases hsearched

/-- A group that selects one child at a time, and meets no fault, reaches exactly one
place. -/
theorem exists_ends_of_single (hsingle : ∀ segment ∈ segments, segment.isMultiValued = false)
    (hreadable : Readable true segments value) :
    ∃ location final, ends segments value = [(location, final)] := by
  induction segments generalizing value with
  | nil => exact ⟨[], value.target, rfl⟩
  | cons segment rest ih =>
    have hrest (other : Segment) (hother : other ∈ rest) : other.isMultiValued = false :=
      hsingle other (List.mem_cons_of_mem _ hother)
    by_cases hsegment : segment = .root
    · subst hsegment
      exact ih hrest hreadable
    · have hone := hsingle segment List.mem_cons_self
      rw [readable_segment hsegment] at hreadable
      obtain ⟨step, hsteps, hpresent⟩ :=
        exists_step_of_single rfl rfl hsegment hone (hreadable.1 .get [])
      obtain ⟨child, hchild⟩ := Option.isSome_iff_exists.mp (hpresent rfl)
      have hbelow := hreadable.2 step (by simp [hsteps]) child hchild
      rw [hone, Bool.not_false, Bool.and_true] at hbelow
      obtain ⟨location, final, hends⟩ := ih hrest hbelow
      refine ⟨step :: location, final, ?_⟩
      rw [ends, reach_segment hsegment, hsteps, List.flatMap_singleton, hchild]
      simp only
      rw [← ends, hends]
      rfl

end Visit

end NestedData
