import NestedData.Proofs.Access.PutGet
import NestedData.Proofs.Access.Putting

/-!
# One segment of an assignment

An assignment along segments that select one child at a time, where it succeeds, enters a
container, which it makes if nothing is there, takes one step, goes on in the child that it
finds or makes room for, and puts there what is left of it.  This module says so once, for
everything that follows such an assignment step by step.

Main results:

- `Action.Sets`: an assignment along segments succeeds and turns one value into another.
- `Action.Sets.exists_advance`: what its first segment does.
- `Value.exists_sets`: an assignment along a path that a text spells is one along segments.
-/

namespace NestedData

namespace Value

theorem target_mapTarget_eq (f : Value → Value) (value : Value) :
    (value.mapTarget f).target = (f value.target).target := by
  rw [← target_mapTarget value (f value.target)]
  exact congrArg target (mapTarget_congr rfl)

theorem mapTarget_mapTarget {f g : Value → Value} {value : Value}
    (htarget : (f value.target).target = f value.target) :
    (value.mapTarget f).mapTarget g = value.mapTarget fun target => g (f target) := by
  induction value using induct with
  | ref referent ih => rw [mapTarget, mapTarget, mapTarget, ih htarget]
  | _ => exact mapTarget_of_target htarget g

variable {value : Value} {step : Step}

theorem Takes.target_eq (htakes : value.Takes step) : value.target = value := by
  cases value with
  | ref referent => exact htakes.elim
  | _ => rfl

theorem Takes.isAbsent_eq_false (htakes : value.Takes step) : value.isAbsent = false := by
  cases value with
  | null | nilRef => exact htakes.elim
  | _ => rfl

end Value

namespace Action

open Value

variable {shaping : Shaping} {new before after : Value} {segment : Segment}
  {segments rest : List Segment} {location : Location}

theorem takes_put {step other : Step} {container : Value} (htakes : container.Takes step)
    (child : Value) (hother : container.Takes other) :
    (put shaping location step child container).Takes other :=
  (grownBy_put shaping location htakes child).takes hother

/-- Something is left of a value from which an assignment went on. -/
theorem isAbsent_descend_assign {tally : Tally} (hsegments : segments ≠ [])
    (hroot : .root ∉ segments) (hsingle : ∀ segment ∈ segments, segment.isMultiValued = false)
    (hok : (descend (assign shaping new) none false true true segments location before).result =
      .ok tally) :
    (descend (assign shaping new) none false true true segments location before).value.isAbsent =
      false := by
  obtain ⟨hassigned, _⟩ := descend_assign_single hroot hsingle hok
  obtain ⟨reached, final, hends⟩ := Visit.exists_ends_of_single hsingle hassigned.readable
  have hreaches : Visit.Reaches segments _ reached := ⟨final, hends ▸ List.mem_singleton_self _⟩
  exact hreaches.isAbsent_eq_false hsegments hroot

/-- An assignment along segments from a place, where a miss is a fault and what is missing is made,
succeeds and turns one value into another. -/
def Sets (shaping : Shaping) (new : Value) (segments : List Segment) (location : Location)
    (before after : Value) : Prop :=
  ∃ tally, descend (assign shaping new) none false true true segments location before =
    { value := after, result := .ok tally }

theorem Sets.unique {other : Value} (hfirst : Sets shaping new segments location before after)
    (hsecond : Sets shaping new segments location before other) : after = other := by
  obtain ⟨tally, hfirst⟩ := hfirst
  obtain ⟨_, hsecond⟩ := hsecond
  rw [hfirst] at hsecond
  exact congrArg Edit.value hsecond

/-- What the first segment of an assignment does: it takes a step in the container that is there or
was made, the assignment goes on in the child, and what is left of the child is put in its place. -/
structure Advance (shaping : Shaping) (new : Value) (segment : Segment) (rest : List Segment)
    (location : Location) (before after : Value) (step : Step) (old child : Value) : Prop where
  /-- The segment selects the step. -/
  selects : Selection.select
      { operation := .set, location, strict := true, create := true, searching := false }
      (vivify shaping location segment before).target segment = .ok [step]
  /-- There is a child, or room for one. -/
  takes : (vivify shaping location segment before).target.Takes step
  /-- What is found once room has been made. -/
  finds : (makeRoom shaping location step
      (vivify shaping location segment before).target).child? step = some old
  /-- The assignment goes on there. -/
  onward : Sets shaping new rest (location.child step) old child
  /-- What is left of the child is put in its place. -/
  result : after = (vivify shaping location segment before).mapTarget fun container =>
      put shaping location step child container

/-- An assignment that succeeds takes a step with its first segment. -/
theorem Sets.exists_advance (hroot : .root ∉ segment :: rest)
    (hsingle : ∀ other ∈ segment :: rest, other.isMultiValued = false)
    (hsets : Sets shaping new (segment :: rest) location before after) :
    ∃ step old child, Advance shaping new segment rest location before after step old child := by
  obtain ⟨tally, hdescend⟩ := hsets
  have hsegment : segment ≠ .root := (List.ne_of_not_mem_cons hroot).symm
  have hone : segment.isMultiValued = false := hsingle segment List.mem_cons_self
  rw [descend_assign_segment hsegment, Edit.atTarget_eq] at hdescend
  generalize hcontainer : (vivify shaping location segment before).target = container at hdescend
  cases hselect : Selection.select
      { operation := .set, location, strict := true, create := true, searching := false }
      container segment with
  | error error =>
    simp only [hselect] at hdescend
    cases hdescend
  | ok steps =>
    simp only [hselect, hone, Bool.not_false, Bool.and_true, Edit.mk.injEq] at hdescend
    obtain ⟨hafter, hok⟩ := hdescend
    obtain ⟨step, rfl, htakes⟩ :=
      Selection.exists_takes_of_single rfl rfl hsegment hone hselect
    obtain ⟨done, hdone, hsequence⟩ := Edit.sequence_cons_ok hok
    rw [hsequence, Edit.sequence_nil] at hafter
    obtain ⟨old, hold, hinner, hput⟩ := assignChild_ok htakes (.inl rfl)
      (fun old hsegments _ => isAbsent_descend_assign hsegments (List.not_mem_of_not_mem_cons hroot)
        fun other hother => hsingle other (List.mem_cons_of_mem _ hother)) hdone
    subst hcontainer
    have honward : Sets shaping new rest (location.child step) old
        (descend (assign shaping new) none false true true rest (location.child step) old).value :=
      ⟨done, by rw [← hinner]⟩
    exact ⟨step, old, _, hselect, htakes, hold, honward, hafter.symm.trans (mapTarget_congr hput)⟩

namespace Advance

variable {step : Step} {old child : Value}

theorem target_eq
    (hadvance : Advance shaping new segment rest location before after step old child) :
    after.target =
      put shaping location step child (vivify shaping location segment before).target := by
  rw [hadvance.result, target_mapTarget_eq]
  exact (takes_put hadvance.takes child hadvance.takes).target_eq

theorem vivify_eq
    (hadvance : Advance shaping new segment rest location before after step old child)
    (other : Segment) : vivify shaping location other after = after := by
  apply vivify_of_present
  rw [hadvance.target_eq]
  exact (takes_put hadvance.takes child hadvance.takes).isAbsent_eq_false

end Advance

end Action

/-! ## Whole paths -/

/-- An assignment along a path that a text spells, without a search and with segments that select
one child at a time, is an assignment along segments other than the root mark. -/
theorem Value.exists_sets {text : String} {path : Path} (hparse : Path.parse text = .ok path)
    (hpath : path.isMultiValued = false) :
    ∃ segments, .root ∉ segments ∧ (∀ segment ∈ segments, segment.isMultiValued = false) ∧
      (path.first = segments ∨ path.first = .root :: segments) ∧
      ∀ {root new after : Value} {shaping : Shaping} {count : Nat},
        root.setAt path new shaping = (after, .ok count) →
          Action.Sets shaping new segments [] root after := by
  obtain ⟨hsearches, hsingle⟩ := Path.searches_eq_nil hpath
  obtain ⟨segments, hroot, hmem, hfirst⟩ := Path.exists_segments (Path.isCanonical_of_parse hparse)
  refine ⟨segments, hroot, fun segment hsegment => hsingle segment (hmem segment hsegment), hfirst,
    fun hset => ?_⟩
  obtain ⟨tally, hdescend, _⟩ := setAt_eq_ok hsearches hfirst hset
  exact ⟨tally, hdescend⟩

end NestedData
