import Mathlib.Data.List.Flatten
import NestedData.Proofs.Access.Erasing
import NestedData.Proofs.Access.Meeting
import NestedData.Proofs.Access.Repeating

/-!
# Deletions whose selections overlap

This module follows deletions with several searches, and with unions that name a child
several times.  They come to a container once for every way that leads there, when it may
have lost children already.  Maps, records and lists of fixed length bear that, as what is
left of them is found under the same steps.  In a growable list what is left moves up, so
what a second visit deletes is something else.  As long as no element of a growable list is
met twice, a deletion prunes the root: no list that has lost elements is entered again.  Nor
is a fault passed over because the place where it would be met has been deleted.

Main results:

- `Visit.mem_reach_of_mem_found`: what a search finds below a place that its group reaches
  from farther up is found from there too.
- `Action.descend_erase_leaves`, `Action.search_erase_leaves`: following segments and
  searching prune what they reach, out of the way of what has been pruned before.
- `Value.eraseAt_prunes_once`: a deletion that meets no element of a growable list twice, and
  succeeds, prunes the root, and what it deletes can be visited.
- `Value.eraseAt_meets_twice`: one that meets an element twice deletes what was not selected.
-/

namespace NestedData

/-! ## What is found from farther up -/

/-- Searches that lead on from a place below lead on from above, after a longer run. -/
theorem SearchLeads.from_above {searches : List (List Segment)} {value start final : Value}
    {run later : Location} (hsearches : searches ≠ []) (hrun : value.valueAt? run = some start)
    (hleads : SearchLeads searches start later final) :
    SearchLeads searches value (run ++ later) final := by
  cases hleads with
  | done => exact absurd rfl hsearches
  | @search _ _ _ inner _ _ further own last hfurther hown hlast =>
    have hlonger : value.valueAt? (run ++ further) = some inner := by
      rw [Value.valueAt?_append, hrun, Option.bind_some, hfurther]
    rw [← List.append_assoc]
    exact .search hlonger hown hlast

namespace Visit

open Value

/-- What a search finds inside a child, below a place that its group reaches from the
container, is found from there by the searches after it. -/
theorem mem_reach_of_mem_found {group : List Segment} {searches : List (List Segment)}
    {container child final middle : Value} {step : Step} {above later : Location}
    (hcontainer : container.WellFormed) (htarget : container.target = container)
    (hsearches : searches ≠ []) (hchild : container.child? step = some child)
    (hfound : (later, final) ∈ found (group :: searches) child)
    (hend : (above, middle) ∈ ends group container) (hbegins : above <+: step :: later) :
    (step :: later, final) ∈ reach (found searches) group container := by
  have hinside := hcontainer.child hchild
  rw [← found_target] at hfound
  cases (mem_found_iff hinside.target (target_target child)).mp hfound with
  | @search _ _ _ start deep _ run own last hrun hown hlast =>
    -- The group ends higher up than it does on the way of the search, which is deeper by the
    -- step to the child at least.
    obtain ⟨_, _, rest, hleads, hrest, hsame⟩ := (mem_reach_iff hcontainer).mp hend
    obtain ⟨rfl, rfl⟩ := Prod.mk.inj (List.mem_singleton.mp hrest)
    rw [List.append_nil] at hsame
    subst hsame
    have hlength : above.length ≤ (step :: (run ++ own)).length := by
      rw [hleads.length_eq, ← hown.length_eq, List.length_cons, List.length_append]
      omega
    have hupper : above <+: step :: (run ++ own) := by
      refine List.prefix_of_prefix_length_le hbegins ?_ hlength
      rw [← List.append_assoc]
      exact List.cons_prefix_cons.mpr ⟨rfl, List.prefix_append _ _⟩
    obtain ⟨further, hfurther⟩ := hupper
    have hdeep : container.valueAt? (step :: (run ++ own)) = some deep := by
      rw [valueAt?_target] at hrun
      rw [valueAt?, htarget, hchild, Option.bind_some, valueAt?_append, hrun, Option.bind_some,
        hown.valueAt]
    rw [← hfurther, valueAt?_append, hleads.valueAt, Option.bind_some] at hdeep
    have hmiddle := hcontainer.valueAt hleads.valueAt
    refine (mem_reach_iff hcontainer).mpr ⟨above, middle, further ++ last, hleads, ?_, ?_⟩
    · exact (mem_found_iff hmiddle (target_of_valueAt? hleads.valueAt)).mpr
        (.from_above hsearches hdeep hlast)
    · rw [← List.append_assoc above, hfurther, List.cons_append, List.append_assoc]

end Visit

namespace Action

open Value

variable {searches : List (List Segment)} {segment : Segment} {rest segments : List Segment}
  {group : List Segment} {value container : Value} {doomed : Location → Bool}

/-! ## Following segments -/

/-- A child that is picked and has not been deleted is still picked. -/
theorem mem_steps_prune {step : Step} (hcontainer : container.WellFormed)
    (htarget : container.target = container) (hkeeps : container.KeepsPositions doomed)
    (hstep : step ∈ segment.steps container) (hspared : doomed [step] = false) :
    step ∈ segment.steps (container.prune doomed) := by
  rw [steps_prune_eq_filter hcontainer htarget hkeeps, List.mem_filter]
  refine ⟨hstep, ?_⟩
  rw [child?_prune_of_spared htarget hkeeps hspared, Option.isSome_map]
  exact ((Segment.mem_steps_iff hcontainer).mp hstep).1

/-- What would be deleted below children that are gone does not matter. -/
theorem prune_flatMap_steps (segment : Segment) (added : Step → List Location)
    (hcontainer : container.WellFormed) (htarget : container.target = container)
    (hkeeps : container.KeepsPositions doomed) :
    (container.prune fun other => doomed other || decide
        (other ∈ (segment.steps (container.prune doomed)).flatMap fun step =>
          (added step).map (step :: ·))) =
      container.prune fun other => doomed other || decide
        (other ∈ (segment.steps container).flatMap fun step => (added step).map (step :: ·)) := by
  refine prune_congr_of_shadowed container fun other _ hspared => ?_
  cases hdoomed : doomed other with
  | true => rfl
  | false =>
    rw [Bool.false_or, Bool.false_or, decide_eq_decide, List.mem_flatMap, List.mem_flatMap]
    constructor
    · rintro ⟨step, hstep, hmem⟩
      rw [steps_prune_eq_filter hcontainer htarget hkeeps] at hstep
      exact ⟨step, (List.mem_filter.mp hstep).1, hmem⟩
    · rintro ⟨step, hstep, hmem⟩
      obtain ⟨below, hbelow, rfl⟩ := List.mem_map.mp hmem
      refine ⟨step, mem_steps_prune hcontainer htarget hkeeps hstep ?_, hmem⟩
      cases below with
      | nil => exact hdoomed
      | cons next later =>
        have hshadow := hspared [step] (List.cons_ne_nil _ _) (by simp) (by simp)
        exact (Bool.or_eq_false_iff.mp hshadow).1

/-- The searches, if there are any, prune what they find where nothing disturbs them and no
element is met twice.  If they succeed, there are no faults. -/
structure SearchLeaves (searches : List (List Segment)) : Prop where
  /-- What an edit by the searches leaves of a value. -/
  leaves : ∀ edit, search erase searches = some edit → ∀ value doomed location, value.WellFormed →
    SearchUndisturbed searches value doomed →
    value.MeetsOnce (Visit.found (Path.thinSearches searches) value) →
      (edit location (value.prune doomed)).Leaves value
        (fun other => doomed other || decide (other ∈ value.erasable (Visit.found searches value)))
        (∀ steps, ¬SearchFaults searches value steps)

/-- Segments and searches, if there are any, lead away from where they start. -/
theorem ne_nil_of_mem_reach_searches (hgroups : ∀ group ∈ searches, group ≠ [] ∧ .root ∉ group)
    (hroot : .root ∉ segments) (hsome : segments = [] → searches ≠ []) (hvalue : value.WellFormed)
    {place : Location × Value}
    (hplace : place ∈ Visit.reach (Visit.found searches) segments value) :
    place.1 ≠ [] := by
  cases searches with
  | nil => exact ne_nil_of_mem_reach (fun hnone => hsome hnone rfl) hroot hvalue hplace
  | cons group later =>
    obtain ⟨hgroup, hmark⟩ := hgroups group List.mem_cons_self
    exact ne_nil_of_mem_reach_found hgroup hmark hvalue hplace

/-- What is met below children is met in the container. -/
theorem sublist_reach (arrive : Value → Visit.Trace) (rest : List Segment) {child : Value}
    {step : Step} {picked : List Step} (hsegment : segment ≠ .root)
    (htarget : container.target = container)
    (hpicked : picked.Sublist (segment.steps container)) (hsame : ∀ other ∈ picked, other = step)
    (hchild : container.child? step = some child) :
    (picked.flatMap fun _ => (Visit.reach arrive rest child).map (Location.below [step])).Sublist
      (Visit.reach arrive (segment :: rest) container) := by
  rw [Visit.reach_segment hsegment, htarget]
  refine List.Sublist.trans ?_ (hpicked.flatMap _)
  rw [List.flatMap_congr fun other hother => ?_]
  rw [hsame other hother, hchild]

theorem mem_steps_of_prune {step : Step} (hcontainer : container.WellFormed)
    (htarget : container.target = container) (hkeeps : container.KeepsPositions doomed)
    (hstep : step ∈ segment.steps (container.prune doomed)) :
    step ∈ segment.steps container ∧ ((container.prune doomed).child? step).isSome = true := by
  rw [steps_prune_eq_filter hcontainer htarget hkeeps] at hstep
  exact List.mem_filter.mp hstep

/-- Deleting the children that a segment picks prunes what it reaches. -/
theorem eraseMembers_leaves_reach {strict : Bool} {location : Location} {tally : Tally}
    (hsegment : segment ≠ .root) (hcontainer : container.WellFormed)
    (htarget : container.target = container) (hkeeps : container.KeepsPositions doomed)
    (hok : (eraseMembers location strict (segment.steps (container.prune doomed))
      (container.prune doomed)).result = .ok tally) :
    (eraseMembers location strict (segment.steps (container.prune doomed))
      (container.prune doomed)).value = container.prune fun other => doomed other ||
        decide (other ∈ container.erasable (Visit.reach (Visit.found []) [segment] container)) := by
  rw [eraseMembers_leaves hcontainer htarget hkeeps
    (fun step hstep => (mem_steps_of_prune hcontainer htarget hkeeps hstep).2) hok,
    erasable_reach_single hsegment hcontainer htarget]
  congr 1
  funext other
  cases hdoomed : doomed other with
  | true => rfl
  | false =>
    rw [Bool.false_or, Bool.false_or, decide_eq_decide]
    simp only [List.mem_map, List.mem_filter]
    constructor
    · rintro ⟨step, ⟨hstep, hwritable⟩, rfl⟩
      exact ⟨step, ⟨(mem_steps_of_prune hcontainer htarget hkeeps hstep).1, hwritable⟩, rfl⟩
    · rintro ⟨step, ⟨hstep, hwritable⟩, rfl⟩
      exact ⟨step, ⟨mem_steps_prune hcontainer htarget hkeeps hstep hdoomed, hwritable⟩, rfl⟩

/-- Going on from the children that a segment picks prunes what is reached in this way, if
going on from each child prunes what is reached below it. -/
theorem sequence_leaves_reach {searching strict : Bool} {inner : Location → Value → Edit}
    {location : Location}
    (hgroups : ∀ group ∈ searches, group ≠ [] ∧ .root ∉ group) (hsegment : segment ≠ .root)
    (hroot : .root ∉ rest) (hsome : rest = [] → searches ≠ []) (hcontainer : container.WellFormed)
    (htarget : container.target = container)
    (hundisturbed : Undisturbed searches searching strict (segment :: rest) container doomed)
    (hmeets : container.MeetsOnce (Visit.reach (Visit.found (Path.thinSearches searches))
      (Path.thinGroup searches (segment :: rest)) container))
    (hstays : Stays inner)
    (hinner : ∀ step child done, child.WellFormed →
      Undisturbed searches false (strict && !segment.isMultiValued) rest child done →
      child.MeetsOnce (Visit.reach (Visit.found (Path.thinSearches searches))
        (Path.thinGroup searches rest) child) →
        (inner (location.child step) (child.prune done)).Leaves child
          (fun other => done other ||
            decide (other ∈ child.erasable (Visit.reach (Visit.found searches) rest child)))
          (∀ steps,
            ¬MeetsFault searches false (strict && !segment.isMultiValued) rest child steps)) :
    (Edit.sequence (segment.steps (container.prune doomed)) (editChild none location inner) {}
      (container.prune doomed)).Leaves container
      (fun other => doomed other || decide (other ∈
        container.erasable (Visit.reach (Visit.found searches) (segment :: rest) container)))
      (∀ step ∈ segment.steps container, ∀ child, container.child? step = some child → ∀ steps,
        ¬MeetsFault searches false (strict && !segment.isMultiValued) rest child steps) := by
  have hkeeps := hundisturbed.clears.keepsPositions htarget
  have hbelow (child : Value) (hchild : child.WellFormed) :
      ∀ place ∈ Visit.reach (Visit.found searches) rest child, place.1 ≠ [] :=
    fun _ => ne_nil_of_mem_reach_searches hgroups hroot hsome hchild
  have hpicked {step : Step} (hstep : step ∈ segment.steps (container.prune doomed)) :=
    mem_steps_of_prune hcontainer htarget hkeeps hstep
  have hfound {step : Step} {child : Value} (hchild : container.child? step = some child) :
      reachedBelow (Visit.found searches) rest container step =
        child.erasable (Visit.reach (Visit.found searches) rest child) := by
    rw [reachedBelow, hchild]
  rw [Path.thinGroup, if_neg fun hend => hsome hend.1 hend.2] at hmeets
  intro tally hok
  rw [erasable_reach_cons hsegment hcontainer htarget hbelow,
    ← prune_flatMap_steps segment _ hcontainer htarget hkeeps]
  refine And.imp_right (fun hpassed step hstep child hchild steps hmeet => ?faultless)
    (sequence_editChild_leaves
      (fun _ child => ∀ steps,
        ¬MeetsFault searches false (strict && !segment.isMultiValued) rest child steps)
      (fun step done => ∀ child, container.child? step = some child →
        Undisturbed searches false (strict && !segment.isMultiValued) rest child done)
      _ hcontainer htarget hkeeps hstays (fun step hstep => ?below)
      (fun step hstep => (hpicked hstep).2)
      (fun step hstep child hchild =>
        hundisturbed.below hsegment hcontainer htarget (hpicked hstep).1 hchild)
      (fun step done htwice hpassed hfits child hchild => ?again)
      (fun step hstep child hchild done hfits => ?child) tally hok)
  case faultless =>
    have hleft := (hundisturbed.spared_child hcontainer htarget hstep hchild hmeet).step
    exact hpassed step (mem_steps_prune hcontainer htarget hkeeps hstep hleft) hleft child hchild
      steps hmeet
  case below =>
    obtain ⟨child, hchild⟩ := Option.isSome_iff_exists.mp
      ((Segment.mem_steps_iff hcontainer).mp (hpicked hstep).1).1
    rw [hfound hchild]
    exact nil_notMem_erasable (hbelow child (hcontainer.child hchild))
  case again =>
    -- A child that is named again holds no elements that have been deleted meanwhile, as they
    -- would be met twice, and no faults, as they would have been met.
    have hsteps : [step, step].Sublist (segment.steps container) := by
      refine htwice.trans ?_
      rw [steps_prune_eq_filter hcontainer htarget hkeeps]
      exact List.filter_sublist
    refine (hfits child hchild).or (fun other hother => ?_) fun steps hmeet => ?_
    · rw [hfound hchild] at hother
      obtain ⟨place, hplace, rfl⟩ :=
        List.mem_map.mp (List.mem_filter.mp (of_decide_eq_true hother)).1
      refine hmeets.again (htarget.symm ▸ hchild) ?_ (Visit.reach_subset_thinned _ _ _ hplace)
      simpa using sublist_reach (Visit.found (Path.thinSearches searches))
        (Path.thinGroup searches rest) hsegment htarget hsteps (by simp) hchild
    · have hstep := hsteps.subset List.mem_cons_self
      have hleft := (hundisturbed.spared_child hcontainer htarget hstep hchild hmeet).step
      exact hpassed hleft child hchild steps hmeet
  case child =>
    rw [hfound hchild]
    refine hinner step child done (hcontainer.child hchild) (hfits child hchild) ?_
    refine hmeets.child (htarget.symm ▸ hchild) ?_
    simpa using sublist_reach (Visit.found (Path.thinSearches searches))
      (Path.thinGroup searches rest) hsegment htarget
      (List.singleton_sublist.mpr (hpicked hstep).1) (by simp) hchild

/-- Following segments prunes what they reach, where nothing disturbs that and no element is
met twice.  If it succeeds, there are no faults. -/
theorem descend_erase_leaves {searching strict : Bool} (hsearch : SearchLeaves searches)
    (hgroups : ∀ group ∈ searches, group ≠ [] ∧ .root ∉ group) (hroot : .root ∉ segments)
    (hsome : segments = [] → searches ≠ []) (hvalue : value.WellFormed)
    (hundisturbed : Undisturbed searches searching strict segments value doomed)
    (hmeets : value.MeetsOnce (Visit.reach (Visit.found (Path.thinSearches searches))
      (Path.thinGroup searches segments) value)) (creating : Bool) (location : Location) :
    (descend erase (search erase searches) searching strict creating segments location
      (value.prune doomed)).Leaves value
      (fun other => doomed other ||
        decide (other ∈ value.erasable (Visit.reach (Visit.found searches) segments value)))
      (∀ steps, ¬MeetsFault searches searching strict segments value steps) := by
  induction segments generalizing value doomed searching strict creating location with
  | nil =>
    cases searches with
    | nil => exact absurd rfl (hsome rfl)
    | cons group later =>
      rw [Path.thinGroup, Visit.reach, Path.thinSearches, Visit.found_target,
        ← Path.thinSearches] at hmeets
      rw [Visit.reach, Visit.found_target]
      simp only [meetsFault_nil, searchFaults_target]
      exact hsearch.leaves _ rfl value doomed location hvalue
        (hundisturbed.search (List.cons_ne_nil _ _)) hmeets
  | cons segment rest ih =>
    have hsegment : segment ≠ .root := fun hsame => hroot (hsame ▸ List.mem_cons_self)
    have hmark : .root ∉ rest := fun hmem => hroot (List.mem_cons_of_mem _ hmem)
    rw [descend_erase_segment hsegment, ← Visit.reach_target, ← erasable_target]
    apply Edit.Leaves.atTarget
    rw [← Visit.reach_target, ← meetsOnce_target] at hmeets
    rw [← undisturbed_target] at hundisturbed
    simp only [← meetsFault_target value]
    have hcontainer := hvalue.target
    have htarget := target_target value
    generalize value.target = container at hcontainer htarget hundisturbed hmeets ⊢
    have hkeeps := hundisturbed.clears.keepsPositions htarget
    cases hselect : Selection.select
        { operation := .delete, location, strict, create := false, searching }
        (container.prune doomed) segment with
    | error error =>
      intro tally hok
      cases hok
    | ok steps =>
      obtain rfl := Selection.steps_of_select rfl hselect
      have hselects (operation : Operation) (location : Location) : Selection.select
          { operation, location, strict, create := false, searching } container.target segment =
            .ok (segment.steps container.target) := by
        rw [htarget]
        exact Selection.select_of_prune hcontainer htarget hkeeps hselect rfl rfl rfl id
      dsimp only
      split
      · rename_i hlast
        obtain ⟨rfl, rfl⟩ : searches = [] ∧ rest = [] := by
          cases searches with
          | nil => simpa [search] using hlast
          | cons group later => cases hlast
        intro tally hok
        refine ⟨eraseMembers_leaves_reach hsegment hcontainer htarget hkeeps hok, ?_⟩
        intro steps hmeet
        obtain ⟨_, _, _, _, _, hrest⟩ := hmeet.exists_child hcontainer hsegment hselects
        cases meetsFault_nil.mp hrest
      · rename_i hlast
        have hlead : rest = [] → searches ≠ [] := by
          rintro rfl rfl
          exact hlast rfl
        intro tally hok
        obtain ⟨hafter, hbelow⟩ := sequence_leaves_reach hgroups hsegment hmark hlead hcontainer
          htarget hundisturbed hmeets (descend_erase_stays (search_erase_stays searches) rest _ _ _)
          (fun step child done hchild hundisturbed hmeets =>
            ih hmark hlead hchild hundisturbed hmeets _ (location.child step)) tally hok
        refine ⟨hafter, fun steps hmeet => ?_⟩
        obtain ⟨step, child, later, hstep, hchild, hrest⟩ :=
          hmeet.exists_child hcontainer hsegment hselects
        rw [htarget] at hstep hchild
        exact hbelow step hstep child hchild later hrest

/-! ## Searching -/

/-- A wildcard picks all children. -/
theorem steps_wildcard (value : Value) :
    Segment.wildcard.steps value = value.children.map Prod.fst := by
  cases value with
  | map entries =>
    rw [Segment.steps_map, children, List.map_map, Entries.keys, List.map_map]
    rfl
  | record aggregate =>
    rw [Segment.steps_record, children, List.map_map]
    rfl
  | list sequence =>
    have hpositions : List.range sequence.size = sequence.items.toList.zipIdx.map Prod.snd := by
      rw [List.zipIdx_map_snd, List.range_eq_range']
      rfl
    rw [Segment.steps_list, children, List.map_map, hpositions, List.map_map]
    rfl
  | _ => rfl

/-- What a search finds inside a child it finds inside the container. -/
theorem sublist_found {child : Step × Value} (htarget : container.target = container)
    (hchild : child ∈ container.children) :
    ((Visit.found (group :: searches) child.2).map (Location.below [child.1])).Sublist
      (Visit.found (group :: searches) container) := by
  rw [Visit.found_cons group searches container, htarget]
  refine List.Sublist.trans ?_ (List.sublist_append_right _ _)
  have hparts := (List.singleton_sublist.mpr hchild).flatMap fun child =>
    (Visit.found (group :: searches) child.2).map (Location.below [child.1])
  simpa using hparts

/-- Editing everything inside the children prunes what a search finds there, if the edit
does in each child. -/
theorem throughoutChildren_leaves {edit : Location → Value → Edit} {location : Location}
    (hgroup : group ≠ []) (hroot : .root ∉ group) (hcontainer : container.WellFormed)
    (htarget : container.target = container)
    (hundisturbed : SearchUndisturbed (group :: searches) container doomed)
    (hmeets : container.MeetsOnce (Visit.found (Path.thinSearches (group :: searches)) container))
    (hstays : Stays (throughout edit))
    (hchildren : ∀ child ∈ container.children, ∀ location done,
      SearchUndisturbed (group :: searches) child.2 done →
      child.2.MeetsOnce (Visit.found (Path.thinSearches (group :: searches)) child.2) →
        (throughout edit location (child.2.prune done)).Leaves child.2
          (fun other => done other ||
            decide (other ∈ child.2.erasable (Visit.found (group :: searches) child.2)))
          (∀ steps, ¬SearchFaults (group :: searches) child.2 steps)) :
    (throughoutChildren edit location (container.prune doomed)).Leaves container
      (fun other => doomed other || decide (other ∈ container.children.flatMap fun child =>
        (child.2.erasable (Visit.found (group :: searches) child.2)).map (child.1 :: ·)))
      (∀ step child, container.child? step = some child → ∀ steps,
        ¬SearchFaults (group :: searches) child steps) := by
  have hkeeps := hundisturbed.whole.keepsPositions htarget
  have hdistinct := hcontainer.hasDistinctSteps
  have hfound {step : Step} {child : Value} (hchild : container.child? step = some child) :
      reachedBelow (Visit.found (group :: searches)) [] container step =
        child.erasable (Visit.found (group :: searches) child) := by
    simp only [reachedBelow, hchild, Visit.reach, Visit.found_target]
  have hall : (container.children.flatMap fun child =>
      (child.2.erasable (Visit.found (group :: searches) child.2)).map (child.1 :: ·)) =
      (Segment.wildcard.steps container).flatMap fun step =>
        (reachedBelow (Visit.found (group :: searches)) [] container step).map (step :: ·) := by
    rw [steps_wildcard, List.flatMap_map]
    refine List.flatMap_congr fun child hchild => ?_
    rw [hfound ((mem_children_iff hdistinct).mp hchild)]
  have hpicked {step : Step} (hstep : step ∈ Segment.wildcard.steps (container.prune doomed)) :=
    mem_steps_of_prune hcontainer htarget hkeeps hstep
  intro tally hok
  rw [throughoutChildren, ← steps_wildcard] at hok ⊢
  rw [hall, ← prune_flatMap_steps .wildcard _ hcontainer htarget hkeeps]
  refine And.imp_right (fun hpassed step child hchild steps hmeet => ?faultless)
    (sequence_editChild_leaves
      (fun _ child => ∀ steps, ¬SearchFaults (group :: searches) child steps)
      (fun step done => ∀ child, container.child? step = some child →
        SearchUndisturbed (group :: searches) child done)
      _ hcontainer htarget hkeeps hstays (fun step hstep => ?below)
      (fun step hstep => (hpicked hstep).2)
      (fun step hstep child hchild => hundisturbed.below htarget hchild)
      (fun step done htwice => ?again) (fun step hstep child hchild done hfits => ?child) tally hok)
  case faultless =>
    have hleft := (hundisturbed.spared_child htarget hchild hmeet).step
    refine hpassed step (mem_steps_prune hcontainer htarget hkeeps ?_ hleft) hleft child hchild
      steps hmeet
    rw [steps_wildcard]
    exact List.mem_map_of_mem (mem_children_of_child? hchild)
  case below =>
    obtain ⟨child, hchild⟩ := Option.isSome_iff_exists.mp
      ((Segment.mem_steps_iff hcontainer).mp (hpicked hstep).1).1
    rw [hfound hchild]
    refine nil_notMem_erasable fun place hplace hempty => ?_
    have hlength := length_le_of_mem_found hroot (hcontainer.child hchild) hplace
    rw [hempty] at hlength
    exact hgroup (List.length_eq_zero_iff.mp (Nat.le_zero.mp hlength))
  case again =>
    -- A wildcard names no child again.
    rw [steps_wildcard] at htwice
    have hsteps := nodup_steps (hdistinct.prune_of_keeps htarget hkeeps)
    exact absurd htwice (List.nodup_iff_sublist.mp hsteps step)
  case child =>
    rw [hfound hchild]
    have hmem := mem_children_of_child? hchild
    refine hchildren (step, child) hmem _ done (hfits child hchild) ?_
    exact hmeets.child (htarget.symm ▸ hchild) (sublist_found htarget hmem)

/-- What a search has deleted inside the children is out of the way of its group, if no
element is met twice: what the searches after it found there they would find again. -/
theorem clears_of_found (hroot : .root ∉ group) (hcontainer : container.WellFormed)
    (htarget : container.target = container) (hwhole : container.Whole doomed)
    (hmeets : container.MeetsOnce (Visit.found (Path.thinSearches (group :: searches)) container)) :
    container.Clears searches group fun other => doomed other ||
      decide (other ∈ container.children.flatMap fun child =>
        (child.2.erasable (Visit.found (group :: searches) child.2)).map (child.1 :: ·)) := by
  intro location hdoomed helement
  rcases Bool.or_eq_true_iff.mp hdoomed with hbefore | hinside
  · rw [hwhole location hbefore] at helement
    cases helement
  obtain ⟨⟨step, child⟩, hmem, hbelow⟩ := List.mem_flatMap.mp (of_decide_eq_true hinside)
  obtain ⟨later, hlater, rfl⟩ := List.mem_map.mp hbelow
  obtain ⟨⟨later, final⟩, hplace, rfl⟩ := List.mem_map.mp (List.mem_filter.mp hlater).1
  have hchild := (mem_children_iff hcontainer.hasDistinctSteps).mp hmem
  refine ⟨Nat.lt_succ_of_le (length_le_of_mem_found hroot (hcontainer.child hchild) hplace),
    fun hsearches place hend hbegins => ?_⟩
  have hreach :=
    Visit.mem_reach_of_mem_found hcontainer htarget hsearches hchild hplace hend hbegins
  have hagain : (step :: later, final) ∈ container.children.flatMap fun child =>
      (Visit.found (Path.thinSearches (group :: searches)) child.2).map
        (Location.below [child.1]) :=
    List.mem_flatMap.mpr ⟨(step, child), hmem,
      List.mem_map_of_mem (Visit.found_subset_thinned _ _ hplace)⟩
  rw [Path.thinSearches, Visit.found_cons, htarget, MeetsOnce, List.map_append,
    List.filter_append] at hmeets
  exact (List.nodup_append.mp hmeets).2.2 _
    (List.mem_filter.mpr
      ⟨List.mem_map_of_mem (Visit.reach_subset_thinned _ _ _ hreach), helement⟩) _
    (List.mem_filter.mpr ⟨List.mem_map_of_mem hagain, helement⟩) rfl

/-- What a search has deleted inside the children does not disturb its group, if no element
is met twice and no fault is met inside the children. -/
theorem undisturbed_of_found (hroot : .root ∉ group)
    (hgroups : ∀ group ∈ searches, .root ∉ group) (hcontainer : container.WellFormed)
    (htarget : container.target = container)
    (hundisturbed : SearchUndisturbed (group :: searches) container doomed)
    (hmeets : container.MeetsOnce (Visit.found (Path.thinSearches (group :: searches)) container))
    (hinside : ∀ step child, container.child? step = some child → ∀ steps,
      ¬SearchFaults (group :: searches) child steps) :
    Undisturbed searches true false group container fun other => doomed other ||
      decide (other ∈ container.children.flatMap fun child =>
        (child.2.erasable (Visit.found (group :: searches) child.2)).map (child.1 :: ·)) where
  clears := clears_of_found hroot hcontainer htarget hundisturbed.whole hmeets
  spared steps hmeet := by
    intro above hne hbegins
    have hbefore := hundisturbed.spared steps (MeetsFault.search (htarget.symm ▸ hmeet)) above hne
      hbegins
    simp only [hbefore, Bool.false_or, decide_eq_false_iff_not]
    intro hmem
    obtain ⟨⟨step, child⟩, hchild, hbelow⟩ := List.mem_flatMap.mp hmem
    obtain ⟨later, hlater, rfl⟩ := List.mem_map.mp hbelow
    obtain ⟨⟨later, final⟩, hplace, rfl⟩ := List.mem_map.mp (List.mem_filter.mp hlater).1
    have hpresent := (mem_children_iff hcontainer.hasDistinctSteps).mp hchild
    obtain ⟨rest, _, hfault⟩ := hmeet.searchFaults_child hcontainer htarget hroot hgroups hpresent
      hplace hbegins
    exact hinside step child hpresent rest hfault

/-- A search prunes what it finds, if the searches after it do. -/
theorem throughout_erase_leaves (hsearch : SearchLeaves searches)
    (hgroups : ∀ group ∈ searches, group ≠ [] ∧ .root ∉ group) (hgroup : group ≠ [])
    (hroot : .root ∉ group) : SearchLeaves (group :: searches) := by
  constructor
  intro edit hedit value doomed location hvalue hundisturbed hmeets
  obtain rfl := Option.some.inj hedit
  induction value using Value.induct_children generalizing doomed location with
  | hstep value ih =>
    rw [throughout_eq, ← Visit.found_target, ← erasable_target]
    apply Edit.Leaves.atTarget
    rw [Path.thinSearches, ← Visit.found_target, ← meetsOnce_target, ← Path.thinSearches] at hmeets
    rw [← searchUndisturbed_target] at hundisturbed
    simp only [← searchFaults_target value]
    have hcontainer := hvalue.target
    have htarget := target_target value
    generalize value.target = container at ih hcontainer htarget hundisturbed hmeets ⊢
    have hstays := descend_erase_stays (search_erase_stays searches) group true false false
    have hkeeps := hundisturbed.whole.keepsPositions htarget
    intro tally hok
    obtain ⟨before, done, hinside, hlast, hafter⟩ :=
      throughoutContainer_ok (hcontainer.hasDistinctSteps.prune_of_keeps htarget hkeeps) hok
    obtain ⟨hchildren, hnone⟩ := throughoutChildren_leaves hgroup hroot hcontainer htarget
      hundisturbed hmeets (throughout_stays hstays)
      (fun child hchild location done hundisturbed hmeets =>
        ih child hchild done location (hcontainer.child
          ((mem_children_iff hcontainer.hasDistinctSteps).mp hchild)) hundisturbed hmeets)
      before hinside
    rw [hafter]
    rw [hchildren] at hlast ⊢
    have hreach : container.MeetsOnce (Visit.reach (Visit.found (Path.thinSearches searches))
        (Path.thinGroup searches group) container) := by
      rw [Path.thinSearches, Visit.found_cons] at hmeets
      exact hmeets.sublist (List.sublist_append_left _ _)
    obtain ⟨hvalue, hfaultless⟩ := descend_erase_leaves hsearch hgroups hroot
      (fun hnone => absurd hnone hgroup) hcontainer
      (undisturbed_of_found hroot (fun group hmem => (hgroups group hmem).2) hcontainer htarget
        hundisturbed hmeets hnone) hreach false location done hlast
    constructor
    · rw [hvalue, erasable_found hgroup hroot hcontainer htarget]
      congr 1
      funext other
      simp only [List.mem_append, Bool.decide_or, Bool.or_assoc]
      rw [Bool.or_comm (decide _) (decide _)]
    · intro steps hmeet
      rcases hmeet.cases_value with hmeet | ⟨step, child, later, hchild, _, hmeet⟩
      · exact hfaultless steps (htarget ▸ hmeet)
      · exact hnone step child (htarget ▸ hchild) later hmeet

/-- Searches prune what they find. -/
theorem search_erase_leaves (hgroups : ∀ group ∈ searches, group ≠ [] ∧ .root ∉ group) :
    SearchLeaves searches := by
  induction searches with
  | nil =>
    constructor
    intro edit hedit
    cases hedit
  | cons group rest ih =>
    obtain ⟨hgroup, hroot⟩ := hgroups group List.mem_cons_self
    have hrest : ∀ group ∈ rest, group ≠ [] ∧ .root ∉ group :=
      fun other hother => hgroups other (List.mem_cons_of_mem _ hother)
    exact throughout_erase_leaves (ih hrest) hrest hgroup hroot

end Action

/-! ## Whole paths -/

namespace Value

/-- A deletion along a path that a text spells, with any number of searches and with unions
that may name a child several times: if no element of a growable list is met twice, repeated
entries of a union at the end apart, and the deletion succeeds, then the places that the path
selects can be visited, and the deletion leaves what pruning these places leaves of the root,
fields that may not be written apart, or the emptied root if the path is that of the root. -/
theorem eraseAt_prunes_once {root after : Value} {text : String} {path : Path} {count : Nat}
    (hparse : Path.parse text = .ok path) (hroot : root.WellFormed)
    (hmeets : root.MeetsOnce (root.reached path.thinned))
    (hok : root.eraseAt path = (after, .ok count)) :
    let doomed := root.erasable (root.visits path).collected
    (root.visits path).outcome = .ok () ∧
      after = if [] ∈ doomed then root.zeroed
        else root.prune fun location => decide (location ∈ doomed) := by
  intro doomed
  have hpath := Path.isCanonical_of_parse hparse
  have hgroups : ∀ group ∈ path.searches, group ≠ [] ∧ .root ∉ group := fun group hmem =>
    ⟨hpath.search_ne_nil group hmem, hpath.root_notMem_search group hmem⟩
  obtain ⟨segments, hmark, _, hfirst⟩ := Path.exists_segments hpath
  have hthinned : root.reached path.thinned =
      Visit.reach (Visit.found (Path.thinSearches path.searches))
        (Path.thinGroup path.searches segments) root :=
    Visit.reach_of_first (Path.thinGroup_of_first hfirst) root
  obtain ⟨tally, hresult, hafter, _⟩ := eraseAt_eq_ok hok
  rw [Action.descend_of_first hfirst] at hresult hafter
  have hvisits (hfaultless : ∀ steps, ¬MeetsFault path.searches false true segments root steps) :
      (root.visits path).outcome = .ok () :=
    outcome_visits hroot hmark (fun group hmem => (hgroups group hmem).2) hfirst hfaultless
  have hreached (hvisits : (root.visits path).outcome = .ok ()) : (root.visits path).collected =
      Visit.reach (Visit.found path.searches) segments root := by
    rw [collected_visits hvisits, reached, Visit.reach_of_first hfirst]
  by_cases hwhole : segments = [] ∧ path.searches = []
  · have hok := hvisits fun steps hmeet => by
      rw [hwhole.1, hwhole.2] at hmeet
      cases meetsFault_nil.mp hmeet
    refine ⟨hok, ?_⟩
    simp only [doomed, hreached hok]
    rw [hwhole.1, hwhole.2] at hafter ⊢
    exact hafter.symm
  · have hsome : segments = [] → path.searches ≠ [] := fun hone hother => hwhole ⟨hone, hother⟩
    have hundisturbed : Undisturbed path.searches false true segments root fun _ => false :=
      ⟨fun _ hnothing => absurd hnothing Bool.false_ne_true, fun _ _ _ _ _ => rfl⟩
    have hleaves := Action.descend_erase_leaves (Action.search_erase_leaves hgroups) hgroups hmark
      hsome hroot hundisturbed (hthinned ▸ hmeets) true []
    simp only [prune_nothing, Bool.false_or] at hleaves
    obtain ⟨hvalue, hfaultless⟩ := hleaves tally hresult
    refine ⟨hvisits hfaultless, ?_⟩
    simp only [doomed, hreached (hvisits hfaultless)]
    rw [if_neg (Action.nil_notMem_erasable fun _ =>
      Action.ne_nil_of_mem_reach_searches hgroups hmark hsome hroot), ← hafter, hvalue]

/-- Below a name and the same name again an entry is deleted once, though it is met twice,
and an element that a union names twice is deleted once. -/
theorem eraseAt_prunes_below_twice :
    let root : Value := .map [("x", .map [("x", .map [("a", .int 1), ("b", .int 2)])]),
      ("y", .map [("x", .ofItems #[.int 7, .int 8])])]
    let path : Path :=
      { first := [.root], searches := [[.key "x"], [.union [.key "a", .index 0, .index 0]]] }
    let after : Value := .map [("x", .map [("x", .map [("b", .int 2)])]),
      ("y", .map [("x", .ofItems #[.int 8])])]
    Path.parse "$..x..['a',0,0]" = .ok path ∧
      (root.visits path).collected = [([.key "x", .key "x", .key "a"], .int 1),
        ([.key "x", .key "x", .key "a"], .int 1), ([.key "y", .key "x", .index 0], .int 7),
        ([.key "y", .key "x", .index 0], .int 7)] ∧
      root.eraseAt path = (after, .ok 2) ∧
      after = root.prune fun location =>
        decide (location ∈ root.erasable (root.visits path).collected) := by
  intro root path after
  have hparse : Path.parse "$..x..['a',0,0]" = .ok path := by
    cbv
  have hroot : root.WellFormed := by
    simp [root, ofItems, Sequence.growable, Entries.keys]
  have hvisits : (root.visits path).collected = [([.key "x", .key "x", .key "a"], .int 1),
      ([.key "x", .key "x", .key "a"], .int 1), ([.key "y", .key "x", .index 0], .int 7),
      ([.key "y", .key "x", .index 0], .int 7)] := by
    cbv
  have hreached : root.reached path.thinned = [([.key "x", .key "x", .key "a"], .int 1),
      ([.key "x", .key "x", .key "a"], .int 1), ([.key "y", .key "x", .index 0], .int 7)] := by
    cbv
  have hmeets : root.MeetsOnce (root.reached path.thinned) := by
    rw [hreached]
    decide
  have hok : root.eraseAt path = (after, .ok 2) := by
    cbv
  have hafter := eraseAt_prunes_once hparse hroot hmeets hok
  refine ⟨hparse, hvisits, hok, hafter.2.trans (if_neg ?_)⟩
  rw [hvisits]
  decide

/-- Below a name and the same name again two elements of a list are deleted, though only the
first of them is selected. -/
theorem eraseAt_meets_twice :
    let root : Value := .map [("x", .map [("x", .ofItems #[.int 1, .int 2, .int 3])])]
    let path : Path := { first := [.root], searches := [[.key "x"], [.index 0]] }
    let after : Value := .map [("x", .map [("x", .ofItems #[.int 3])])]
    Path.parse "$..x..[0]" = .ok path ∧ root.WellFormed ∧
      root.visits path = .running [([.key "x", .key "x", .index 0], .int 1),
        ([.key "x", .key "x", .index 0], .int 1)] ∧
      root.eraseAt path = (after, .ok 2) ∧
      (root.prune fun location => decide (location ∈ root.erasable (root.visits path).collected)) =
        .map [("x", .map [("x", .ofItems #[.int 2, .int 3])])] ∧
      after ≠ root.prune fun location =>
        decide (location ∈ root.erasable (root.visits path).collected) := by
  intro root path after
  have hroot : root.WellFormed := by
    simp [root, ofItems, Sequence.growable, Entries.keys]
  have hprune : (root.prune fun location =>
      decide (location ∈ root.erasable (root.visits path).collected)) =
        .map [("x", .map [("x", .ofItems #[.int 2, .int 3])])] := by
    cbv
  refine ⟨by cbv, hroot, by cbv, by cbv, hprune, ?_⟩
  rw [hprune]
  simp [after, ofItems, Sequence.growable]

end Value

end NestedData
