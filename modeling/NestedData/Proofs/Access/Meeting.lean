import Mathlib.Data.List.Dedup
import NestedData.Proofs.Access.Faults
import NestedData.Proofs.Access.Reaching
import NestedData.Proofs.Value.Repruning

/-!
# Elements that are met twice

A growable list closes up when elements are deleted from it, so it matters how often a
deletion comes to it.  This module says which places are elements of such lists, when none
of them is met twice, and what it means for a value that has been pruned before that what
it has lost is out of the way: lists that have lost elements are not selected from again,
and no fault has been lost.  Entries that a union repeats at the end of a path are not
counted, as the elements that it names are deleted together.

Main results:

- `Visit.reach_subset_thinned`: dropping repeated entries at the end of a path loses no place.
- `Value.MeetsOnce.child`: what is met below a child is met from the child.
- `Value.MeetsOnce.again`: below a child that is come to twice no element is met.
- `Value.Clears.child`: what is out of the way is out of the way from the children.
- `Undisturbed.below`, `SearchUndisturbed.below`: nor does it disturb going on from them.
-/

namespace NestedData

/-! ## Repeated entries at the end of a path -/

/-- A segment without the entries that a union repeats. -/
def Segment.thinned : Segment → Segment
  | .union selectors => .union selectors.dedup
  | segment => segment

/-- Repeated entries pick nothing new. -/
theorem Segment.mem_steps_thinned {segment : Segment} {container : Value} {step : Step} :
    step ∈ segment.thinned.steps container ↔ step ∈ segment.steps container := by
  cases segment with
  | union selectors =>
    cases container with
    | map entries => simp [thinned, steps_map]
    | record aggregate => simp [thinned, steps_record]
    | list sequence => simp [thinned, steps_list]
    | _ => exact Iff.rfl
  | _ => exact Iff.rfl

theorem Segment.thinned_eq_root_iff {segment : Segment} :
    segment.thinned = .root ↔ segment = .root := by
  cases segment <;> simp [thinned]

namespace Path

/-- A group of segments without repeated entries at its end, if nothing is searched for
after it. -/
def thinGroup (searches : List (List Segment)) : List Segment → List Segment
  | [] => []
  | segment :: rest =>
    (if rest = [] ∧ searches = [] then segment.thinned else segment) :: thinGroup searches rest

theorem thinGroup_of_first {searches : List (List Segment)} {first segments : List Segment}
    (hfirst : first = segments ∨ first = .root :: segments) :
    thinGroup searches first = thinGroup searches segments ∨
      thinGroup searches first = .root :: thinGroup searches segments := by
  rcases hfirst with rfl | rfl
  · exact .inl rfl
  · exact .inr (by simp [thinGroup, Segment.thinned])

/-- Searches without repeated entries at the end of the last. -/
def thinSearches : List (List Segment) → List (List Segment)
  | [] => []
  | group :: rest => thinGroup rest group :: thinSearches rest

/-- A path without repeated entries at its end. -/
def thinned (path : Path) : Path where
  first := thinGroup path.searches path.first
  searches := thinSearches path.searches

end Path

namespace Visit

variable {searches : List (List Segment)} {segments : List Segment}

/-- Without repeated entries at its end a group reaches the same places, if the searches
after it find the same. -/
theorem mem_reach_thinGroup
    (hfound : ∀ value, found searches value ⊆ found (Path.thinSearches searches) value)
    (value : Value) :
    reach (found searches) segments value ⊆
      reach (found (Path.thinSearches searches)) (Path.thinGroup searches segments) value := by
  induction segments generalizing value with
  | nil => exact hfound value.target
  | cons segment rest ih =>
    rw [Path.thinGroup]
    generalize hhead : (if rest = [] ∧ searches = [] then segment.thinned else segment) = head
    have hroot : head = .root ↔ segment = .root := by
      rw [← hhead]
      split
      · exact Segment.thinned_eq_root_iff
      · rfl
    by_cases hsegment : segment = .root
    · rw [hroot.mpr hsegment, hsegment]
      exact ih value
    · have hsteps (step : Step) :
          step ∈ segment.steps value.target → step ∈ head.steps value.target := by
        rw [← hhead]
        split
        · exact Segment.mem_steps_thinned.mpr
        · exact id
      rintro ⟨location, final⟩ hplace
      obtain ⟨step, child, later, hstep, hchild, hlater, rfl⟩ :=
        (mem_reach_segment hsegment).mp hplace
      exact (mem_reach_segment (mt hroot.mp hsegment)).mpr
        ⟨step, child, later, hsteps step hstep, hchild, ih child hlater, rfl⟩

/-- Without repeated entries at their end searches find the same places. -/
theorem found_subset_thinned (searches : List (List Segment)) (value : Value) :
    found searches value ⊆ found (Path.thinSearches searches) value := by
  induction searches generalizing value with
  | nil => exact List.Subset.refl _
  | cons group rest ih =>
    intro place hplace
    rw [found, List.mem_flatMap] at hplace
    obtain ⟨start, hstart, hmem⟩ := hplace
    rw [Path.thinSearches, found, List.mem_flatMap]
    exact ⟨start, hstart, List.map_subset _ (mem_reach_thinGroup ih start.2) hmem⟩

/-- Without repeated entries at its end a path reaches the same places. -/
theorem reach_subset_thinned (searches : List (List Segment)) (segments : List Segment)
    (value : Value) :
    reach (found searches) segments value ⊆
      reach (found (Path.thinSearches searches)) (Path.thinGroup searches segments) value :=
  mem_reach_thinGroup (found_subset_thinned searches) value

end Visit

namespace Value

variable {value : Value} {step : Step} {doomed : Location → Bool}

/-! ## Elements of growable lists -/

/-- Whether a place is an element of a list that may grow and shrink. -/
def elementAt (value : Value) (location : Location) : Bool :=
  !location.isEmpty && (value.valueAt? location.dropLast).any isGrowable

@[simp]
theorem elementAt_target (value : Value) (location : Location) :
    value.target.elementAt location = value.elementAt location := by
  simp [elementAt]

theorem elementAt_singleton (value : Value) (step : Step) :
    value.elementAt [step] = value.target.isGrowable := by
  simp [elementAt, valueAt?]

theorem elementAt_cons {child : Value} {rest : Location}
    (hchild : value.target.child? step = some child) (hrest : rest ≠ []) :
    value.elementAt (step :: rest) = child.elementAt rest := by
  cases rest with
  | nil => exact absurd rfl hrest
  | cons next later => simp [elementAt, valueAt?, hchild]

theorem elementAt_of_child {child : Value} {rest : Location}
    (hchild : value.target.child? step = some child) (helement : child.elementAt rest = true) :
    value.elementAt (step :: rest) = true := by
  cases rest with
  | nil => cases helement
  | cons next later => rwa [elementAt_cons hchild (List.cons_ne_nil _ _)]

/-- No element of a growable list is met twice. -/
def MeetsOnce (value : Value) (trace : Visit.Trace) : Prop :=
  ((trace.map Prod.fst).filter value.elementAt).Nodup

instance (value : Value) (trace : Visit.Trace) : Decidable (value.MeetsOnce trace) :=
  inferInstanceAs (Decidable (List.Nodup _))

theorem meetsOnce_target {trace : Visit.Trace} :
    value.target.MeetsOnce trace ↔ value.MeetsOnce trace := by
  rw [MeetsOnce, MeetsOnce, funext (elementAt_target value)]

theorem MeetsOnce.sublist {trace part : Visit.Trace} (hmeets : value.MeetsOnce trace)
    (hpart : part.Sublist trace) : value.MeetsOnce part :=
  List.Nodup.sublist ((hpart.map Prod.fst).filter _) hmeets

/-- What is met below a child is met from the child. -/
theorem MeetsOnce.child {child : Value} {trace inner : Visit.Trace}
    (hmeets : value.MeetsOnce trace)
    (hchild : value.target.child? step = some child)
    (hinner : (inner.map (Location.below [step])).Sublist trace) : child.MeetsOnce inner := by
  have hlocations : (inner.map (Location.below [step])).map Prod.fst =
      (inner.map Prod.fst).map (step :: ·) := by
    rw [List.map_map, List.map_map]
    rfl
  have hsub := (hinner.map Prod.fst).filter value.elementAt
  rw [hlocations, List.filter_map] at hsub
  refine List.Nodup.of_map (step :: ·) (List.Nodup.sublist (.trans (.map _ ?_) hsub) hmeets)
  refine List.monotone_filter_right _ fun rest helement => ?_
  exact elementAt_of_child hchild helement

/-- What is met below a child that is come to twice are no elements. -/
theorem MeetsOnce.again {child : Value} {trace inner : Visit.Trace}
    (hmeets : value.MeetsOnce trace)
    (hchild : value.target.child? step = some child)
    (hinner : ((inner ++ inner).map (Location.below [step])).Sublist trace)
    {place : Location × Value} (hplace : place ∈ inner) : child.elementAt place.1 = false := by
  have htwice := hmeets.child hchild hinner
  rw [MeetsOnce, List.map_append, List.filter_append] at htwice
  by_contra helement
  have hmem : place.1 ∈ (inner.map Prod.fst).filter child.elementAt :=
    List.mem_filter.mpr ⟨List.mem_map_of_mem hplace, by simpa using helement⟩
  exact (List.nodup_append.mp htwice).2.2 _ hmem _ hmem rfl

/-! ## What has been deleted before -/

/-- Nothing has been deleted from growable lists. -/
def Whole (value : Value) (doomed : Location → Bool) : Prop :=
  ∀ location, doomed location = true → value.elementAt location = false

/-- What has been deleted from growable lists lies deeper than the segments lead and, if
something is searched for afterwards, not below the places where they end. -/
def Clears (value : Value) (searches : List (List Segment)) (segments : List Segment)
    (doomed : Location → Bool) : Prop :=
  ∀ location, doomed location = true → value.elementAt location = true →
    segments.length < location.length ∧
      (searches ≠ [] → ∀ place ∈ Visit.ends segments value, ¬place.1 <+: location)

theorem clears_target {searches : List (List Segment)} {segments : List Segment} :
    value.target.Clears searches segments doomed ↔ value.Clears searches segments doomed := by
  simp [Clears]

/-- Lists that have lost elements are not selected from. -/
theorem Clears.keepsPositions {searches : List (List Segment)} {segment : Segment}
    {rest : List Segment} (hclears : value.Clears searches (segment :: rest) doomed)
    (hvalue : value.target = value) : value.KeepsPositions doomed := by
  intro hgrows step
  by_contra hdoomed
  have helement : value.elementAt [step] = true := by
    rw [elementAt_singleton, hvalue, hgrows]
  have hlength := (hclears [step] (by simpa using hdoomed) helement).1
  simp at hlength

/-- Where nothing has been deleted from lists, positions keep their meaning. -/
theorem Whole.keepsPositions (hwhole : value.Whole doomed) (hvalue : value.target = value) :
    value.KeepsPositions doomed := by
  intro hgrows step
  by_contra hdoomed
  have helement := hwhole [step] (by simpa using hdoomed)
  rw [elementAt_singleton, hvalue, hgrows] at helement
  cases helement

/-- What is out of the way of the segments is out of the way from the children. -/
theorem Clears.child {child : Value} {searches : List (List Segment)} {segment : Segment}
    {rest : List Segment} (hclears : value.Clears searches (segment :: rest) doomed)
    (hsegment : segment ≠ .root) (hstep : step ∈ segment.steps value.target)
    (hchild : value.target.child? step = some child) :
    child.Clears searches rest fun below => doomed (step :: below) := by
  intro location hdoomed helement
  obtain ⟨hlength, hends⟩ := hclears (step :: location) hdoomed (elementAt_of_child hchild helement)
  refine ⟨by simpa using hlength, fun hsearches place hplace hbegins => ?_⟩
  refine hends hsearches (step :: place.1, place.2) ?_ (List.cons_prefix_cons.mpr ⟨rfl, hbegins⟩)
  exact (Visit.mem_ends_segment hsegment).mpr ⟨step, child, place.1, hstep, hchild, hplace, rfl⟩

/-- What is not deleted from lists is in nobody's way. -/
theorem Clears.or {searches : List (List Segment)} {segments : List Segment}
    {more : Location → Bool} (hclears : value.Clears searches segments doomed)
    (hwhole : value.Whole more) :
    value.Clears searches segments fun location => doomed location || more location := by
  intro location hdoomed helement
  rcases Bool.or_eq_true_iff.mp hdoomed with hdoomed | hmore
  · exact hclears location hdoomed helement
  · rw [hwhole location hmore] at helement
    cases helement

end Value

/-! ## Deletions that do not disturb what follows -/

/-- What has been deleted before does not disturb following segments and then searching:
lists that have lost elements are not selected from, and no fault has been deleted. -/
structure Undisturbed (searches : List (List Segment)) (searching strict : Bool)
    (segments : List Segment) (value : Value) (doomed : Location → Bool) : Prop where
  /-- What has been deleted from lists is out of the way. -/
  clears : value.Clears searches segments doomed
  /-- What would be a fault is still there. -/
  spared : ∀ steps, MeetsFault searches searching strict segments value steps →
    Spared doomed steps

/-- What has been deleted before does not disturb searching: nothing has been deleted from
lists, and no fault has been deleted. -/
structure SearchUndisturbed (searches : List (List Segment)) (value : Value)
    (doomed : Location → Bool) : Prop where
  /-- Lists have lost nothing. -/
  whole : value.Whole doomed
  /-- What would be a fault is still there. -/
  spared : ∀ steps, SearchFaults searches value steps → Spared doomed steps

section Undisturbed

open Value

variable {searches : List (List Segment)} {searching strict : Bool} {segment : Segment}
  {rest segments group : List Segment} {value container child : Value} {step : Step}
  {doomed more : Location → Bool}

theorem undisturbed_target :
    Undisturbed searches searching strict segments value.target doomed ↔
      Undisturbed searches searching strict segments value doomed := by
  constructor <;> rintro ⟨hclears, hspared⟩
  · exact ⟨clears_target.mp hclears, by simpa only [meetsFault_target] using hspared⟩
  · exact ⟨clears_target.mpr hclears, by simpa only [meetsFault_target] using hspared⟩

theorem searchUndisturbed_target :
    SearchUndisturbed searches value.target doomed ↔ SearchUndisturbed searches value doomed := by
  constructor <;> rintro ⟨hwhole, hspared⟩
  · exact ⟨by simpa only [Whole, elementAt_target] using hwhole,
      by simpa only [searchFaults_target] using hspared⟩
  · exact ⟨by simpa only [Whole, elementAt_target] using hwhole,
      by simpa only [searchFaults_target] using hspared⟩

/-- A fault from a child is one from the container, so it is still there. -/
theorem Undisturbed.spared_child (hcontainer : container.WellFormed)
    (htarget : container.target = container)
    (hundisturbed : Undisturbed searches searching strict (segment :: rest) container doomed)
    (hstep : step ∈ segment.steps container) (hchild : container.child? step = some child)
    {steps : Location}
    (hmeet : MeetsFault searches false (strict && !segment.isMultiValued) rest child steps) :
    Spared doomed (step :: steps) :=
  hundisturbed.spared _ (.cons hcontainer (htarget.symm ▸ hstep) (htarget.symm ▸ hchild) hmeet)

/-- Going on from a child is not disturbed either. -/
theorem Undisturbed.below (hsegment : segment ≠ .root) (hcontainer : container.WellFormed)
    (htarget : container.target = container)
    (hundisturbed : Undisturbed searches searching strict (segment :: rest) container doomed)
    (hstep : step ∈ segment.steps container) (hchild : container.child? step = some child) :
    Undisturbed searches false (strict && !segment.isMultiValued) rest child
      fun below => doomed (step :: below) where
  clears := hundisturbed.clears.child hsegment (htarget.symm ▸ hstep) (htarget.symm ▸ hchild)
  spared _ hmeet := (hundisturbed.spared_child hcontainer htarget hstep hchild hmeet).child

/-- More deletions do not disturb if nothing is deleted from lists and there are no faults. -/
theorem Undisturbed.or (hundisturbed : Undisturbed searches searching strict segments value doomed)
    (hwhole : value.Whole more)
    (hfaultless : ∀ steps, ¬MeetsFault searches searching strict segments value steps) :
    Undisturbed searches searching strict segments value
      fun location => doomed location || more location where
  clears := hundisturbed.clears.or hwhole
  spared steps hmeet := absurd hmeet (hfaultless steps)

/-- Where the segments end, searching is not disturbed. -/
theorem Undisturbed.search (hsearches : searches ≠ [])
    (hundisturbed : Undisturbed searches searching strict [] value doomed) :
    SearchUndisturbed searches value doomed where
  whole location hdoomed := by
    by_contra helement
    refine (hundisturbed.clears location hdoomed (by simpa using helement)).2 hsearches
      ([], value.target) ?_ List.nil_prefix
    rw [Visit.ends_nil]
    exact List.mem_singleton_self _
  spared steps hmeet :=
    hundisturbed.spared steps (meetsFault_nil.mpr ((searchFaults_target value).mpr hmeet))

theorem SearchUndisturbed.spared_child (htarget : container.target = container)
    (hundisturbed : SearchUndisturbed searches container doomed)
    (hchild : container.child? step = some child) {steps : Location}
    (hmeet : SearchFaults searches child steps) : Spared doomed (step :: steps) :=
  hundisturbed.spared _ (.of_child (htarget.symm ▸ hchild) hmeet)

/-- Searching inside a child is not disturbed either. -/
theorem SearchUndisturbed.below (htarget : container.target = container)
    (hundisturbed : SearchUndisturbed searches container doomed)
    (hchild : container.child? step = some child) :
    SearchUndisturbed searches child fun below => doomed (step :: below) where
  whole location hdoomed := by
    by_contra helement
    have hinside := hundisturbed.whole (step :: location) hdoomed
    rw [elementAt_of_child (htarget.symm ▸ hchild) (by simpa using helement)] at hinside
    cases hinside
  spared _ hmeet := (hundisturbed.spared_child htarget hchild hmeet).child

end Undisturbed

end NestedData
