import Mathlib
import NestedData.Proofs.Access.Deletions
import NestedData.Proofs.Access.Untouched
import NestedData.Proofs.Outcome
import NestedData.Proofs.Path.Canonical

/-!
# What deletion leaves

This module follows a deletion along its path and shows that it prunes the root: what
the path visits on the root as it was, less the fields that may not be written, is
deleted, although elements are removed while the deletion is still on its way.  Inside
out, what has been pruned so far always lies deeper than what is selected next.

Main results:

- `Action.descend_erase_prunes`: the last group of a path prunes what it reaches.
- `Action.throughout_erase_prunes`: so does a search for it.
- `Value.eraseAt_prunes`: a deletion prunes the root, and one that fails on its only way
  leaves it as it is.
-/

namespace NestedData

namespace Action

variable {segment : Segment} {rest segments : List Segment} {value : Value}

/-! ## One segment -/

/-- The places that the segments after the first reach below a child. -/
def reachedBelow (arrive : Value → Visit.Trace) (rest : List Segment) (container : Value)
    (step : Step) : List Location :=
  match container.child? step with
  | some child => child.erasable (Visit.reach arrive rest child)
  | none => []

/-- The places that segments reach are reached below the children that the first of them
selects. -/
theorem erasable_reach_cons {arrive : Value → Visit.Trace} (hsegment : segment ≠ .root)
    (hvalue : value.WellFormed) (htarget : value.target = value)
    (hrest : ∀ child : Value, child.WellFormed →
      ∀ place ∈ Visit.reach arrive rest child, place.1 ≠ []) :
    value.erasable (Visit.reach arrive (segment :: rest) value) =
      (segment.steps value).flatMap fun step =>
        (reachedBelow arrive rest value step).map (step :: ·) := by
  rw [Visit.reach_segment hsegment, htarget]
  refine Value.erasable_flatMap (fun step => [step]) fun step _ => ?_
  rw [reachedBelow]
  cases hchild : value.child? step with
  | none => rfl
  | some child =>
    have hstart : value.valueAt? [step] = some child.target := by
      simp [Value.valueAt?, htarget, hchild]
    rw [Value.erasable_below hstart (hrest child (hvalue.child hchild)), Value.erasable_target]

/-- Going on from the children that a segment selects prunes what is reached in this way,
if going on from each child prunes what is reached below it. -/
theorem sequence_reach_prunes {arrive : Value → Visit.Trace} {doomed : Location → Bool}
    (inner : Location → Value → Edit) (location : Location) (hsegment : segment ≠ .root)
    (hdistinct : ∀ entries, segment = .union entries → (entries.map Selection.keyOf).Nodup)
    (hvalue : value.WellFormed) (htarget : value.target = value)
    (hspares : Value.SparesChildren doomed)
    (hrest : ∀ child : Value, child.WellFormed →
      ∀ place ∈ Visit.reach arrive rest child, place.1 ≠ [])
    (hinner : ∀ step child, child.WellFormed → (inner (location.child step)
      (child.prune fun below => doomed (step :: below))).Prunes child
        (fun below => doomed (step :: below) ||
          decide (below ∈ child.erasable (Visit.reach arrive rest child)))
        (child.erasable (Visit.reach arrive rest child)).length) :
    (Edit.sequence (segment.steps value) (editChild none location inner) {}
      (value.prune doomed)).Prunes value
      (fun location => doomed location ||
        decide (location ∈ value.erasable (Visit.reach arrive (segment :: rest) value)))
      (value.erasable (Visit.reach arrive (segment :: rest) value)).length := by
  rw [erasable_reach_cons hsegment hvalue htarget hrest]
  have hpresent (step : Step) (hstep : step ∈ segment.steps value) :
      (value.child? step).isSome = true :=
    ((Segment.mem_steps_iff hvalue).mp hstep).1
  refine sequence_editChild_prunes hvalue htarget (Segment.nodup_steps hvalue hdistinct) hpresent
    hspares (fun step _ hnil => ?_) fun step _ child hchild => ?_
  · rw [reachedBelow] at hnil
    cases hchild : value.child? step with
    | none =>
      rw [hchild] at hnil
      cases hnil
    | some child =>
      rw [hchild] at hnil
      rcases List.mem_map.mp (List.mem_filter.mp hnil).1 with ⟨place, hplace, hempty⟩
      exact hrest child (hvalue.child hchild) place hplace hempty
  · simp only [reachedBelow, hchild]
    exact hinner step child (hvalue.child hchild)

/-! ## The last group -/

theorem filter_root_eq_self (hroot : .root ∉ segments) :
    segments.filter (· != .root) = segments := by
  rw [List.filter_eq_self]
  intro segment hmem
  have hne : segment ≠ .root := fun hsame => hroot (hsame ▸ hmem)
  simpa using hne

/-- Segments other than the root mark lead away from where they start. -/
theorem ne_nil_of_mem_reach (hsegments : segments ≠ []) (hroot : .root ∉ segments)
    (hvalue : value.WellFormed) {place : Location × Value}
    (hplace : place ∈ Visit.reach (Visit.found []) segments value) : place.1 ≠ [] := by
  have hlength := Visit.length_of_mem_reach hvalue hplace
  rw [filter_root_eq_self hroot] at hlength
  rw [← List.length_pos_iff_ne_nil, hlength]
  exact List.length_pos_of_ne_nil hsegments

/-- The last segment reaches the children that it selects. -/
theorem erasable_reach_single (hsegment : segment ≠ .root) (hvalue : value.WellFormed)
    (htarget : value.target = value) :
    value.erasable (Visit.reach (Visit.found []) [segment] value) =
      ((segment.steps value).filter fun step => !value.isReadOnly step).map ([·]) := by
  have hlocations : (Visit.reach (Visit.found []) [segment] value).map Prod.fst =
      (segment.steps value).map ([·]) := by
    rw [Visit.reach_segment hsegment, htarget, List.map_flatMap,
      List.flatMap_congr (g := fun step => [[step]]), ← List.map_eq_flatMap]
    intro step hstep
    obtain ⟨child, hchild⟩ :=
      Option.isSome_iff_exists.mp ((Segment.mem_steps_iff hvalue).mp hstep).1
    simp [hchild, Visit.reach, Visit.found, Location.below]
  rw [Value.erasable, hlocations, List.filter_map]
  congr 1
  refine List.filter_congr fun step _ => ?_
  simp [Value.readOnlyAt, htarget]

/-- The last group of a path prunes what it reaches, less the fields that may not be
written, if what has been pruned already lies deeper. -/
theorem descend_erase_prunes (hsegments : segments ≠ []) (hroot : .root ∉ segments)
    (hdistinct : ∀ entries, .union entries ∈ segments → (entries.map Selection.keyOf).Nodup)
    (hvalue : value.WellFormed) {doomed : Location → Bool}
    (hdeep : ∀ location, doomed location = true → segments.length < location.length)
    (searching strict creating : Bool) (location : Location) :
    (descend erase none searching strict creating segments location (value.prune doomed)).Prunes
      value
      (fun location => doomed location ||
        decide (location ∈ value.erasable (Visit.reach (Visit.found []) segments value)))
      (value.erasable (Visit.reach (Visit.found []) segments value)).length := by
  induction segments generalizing value doomed searching strict creating location with
  | nil => exact absurd rfl hsegments
  | cons segment rest ih =>
    have hsegment : segment ≠ .root := fun hsame => hroot (hsame ▸ List.mem_cons_self)
    have hunion (entries : List Selector) (hsame : segment = .union entries) :
        (entries.map Selection.keyOf).Nodup :=
      hdistinct entries (hsame ▸ List.mem_cons_self)
    have hspares : Value.SparesChildren doomed := by
      intro step
      by_contra hdoomed
      have hlength := hdeep [step] (by simpa using hdoomed)
      simp at hlength
    rw [descend_erase_segment hsegment, ← Visit.reach_target, ← Value.erasable_target]
    apply Edit.Prunes.atTarget
    have hcontainer := hvalue.target
    have htarget := Value.target_target value
    generalize value.target = container at hcontainer htarget ⊢
    cases hselect : Selection.select
        { operation := .delete, location, strict, create := false, searching }
        (container.prune doomed) segment with
    | error error =>
      intro tally hok
      cases hok
    | ok steps =>
      obtain rfl : segment.steps container = steps := by
        rw [← Value.steps_prune htarget hspares, Selection.steps_of_select rfl hselect]
      cases rest with
      | nil =>
        have hthere (step : Step) (hstep : step ∈ segment.steps container) :
            (container.child? step).isSome = true :=
          ((Segment.mem_steps_iff hcontainer).mp hstep).1
        rw [erasable_reach_single hsegment hcontainer htarget]
        exact eraseMembers_prunes hcontainer htarget (Segment.nodup_steps hcontainer hunion) hthere
          hspares
      | cons next later =>
        have hroot : .root ∉ next :: later := fun hmem => hroot (List.mem_cons_of_mem _ hmem)
        refine sequence_reach_prunes _ location hsegment hunion hcontainer htarget hspares
          (fun child hchild place => ne_nil_of_mem_reach (List.cons_ne_nil _ _) hroot hchild)
          fun step child hchild => ?_
        refine ih (List.cons_ne_nil _ _) hroot
          (fun entries hmem => hdistinct entries (List.mem_cons_of_mem _ hmem)) hchild
          (fun below hbelow => ?_) _ _ _ _
        simpa using hdeep (step :: below) hbelow

/-! ## Searching -/

/-- What a search finds lies at least as deep as its group leads. -/
theorem length_le_of_mem_found {group : List Segment} {later : List (List Segment)}
    (hroot : .root ∉ group) (hvalue : value.WellFormed) {place : Location × Value}
    (hplace : place ∈ Visit.found (group :: later) value) : group.length ≤ place.1.length := by
  rcases List.mem_flatMap.mp hplace with ⟨start, hstart, hmem⟩
  rcases List.mem_map.mp hmem with ⟨⟨own, final⟩, hown, rfl⟩
  obtain ⟨steps, _, rest, hleads, _, rfl⟩ := (Visit.mem_reach_iff
    (hvalue.valueAt ((Value.mem_places_iff hvalue).mp hstart))).mp hown
  have hlength := hleads.length_eq
  rw [filter_root_eq_self hroot] at hlength
  simp only [Location.below, List.length_append, hlength]
  omega

/-- What a search finds in a container it finds there or below its children. -/
theorem erasable_found {group : List Segment} {later : List (List Segment)} (hgroup : group ≠ [])
    (hroot : .root ∉ group) (hvalue : value.WellFormed) (htarget : value.target = value) :
    value.erasable (Visit.found (group :: later) value) =
      value.erasable (Visit.reach (Visit.found later) group value) ++
        value.children.flatMap fun child =>
          (child.2.erasable (Visit.found (group :: later) child.2)).map (child.1 :: ·) := by
  rw [Visit.found_cons, Value.erasable_append, htarget]
  congr 1
  refine Value.erasable_flatMap (fun child : Step × Value => [child.1]) fun child hchild => ?_
  have hfound := (Value.mem_children_iff hvalue.hasDistinctSteps).mp hchild
  have hstart : value.valueAt? [child.1] = some child.2.target := by
    simp [Value.valueAt?, htarget, hfound]
  rw [Value.erasable_below hstart, Value.erasable_target]
  intro place hplace hempty
  have hlength := length_le_of_mem_found hroot (hvalue.child hfound) hplace
  rw [hempty] at hlength
  exact hgroup (List.length_eq_zero_iff.mp (Nat.le_zero.mp hlength))

/-- A search inside a container prunes what it finds if a search inside each child
does. -/
theorem throughoutContainer_erase_prunes {group : List Segment} (hgroup : group ≠ [])
    (hroot : .root ∉ group)
    (hdistinct : ∀ entries, .union entries ∈ group → (entries.map Selection.keyOf).Nodup)
    (hvalue : value.WellFormed) (htarget : value.target = value)
    (hchildren : ∀ child ∈ value.children, ∀ location,
      (throughout (descend erase none true false false group) location child.2).Prunes child.2
        (fun below => decide (below ∈ child.2.erasable (Visit.found [group] child.2)))
        (child.2.erasable (Visit.found [group] child.2)).length) (location : Location) :
    (throughoutContainer (descend erase none true false false group) location value).Prunes value
      (fun below => decide (below ∈ value.erasable (Visit.found [group] value)))
      (value.erasable (Visit.found [group] value)).length := by
  have hdeep (child : Step × Value) (hchild : child ∈ value.children) (below : Location)
      (hbelow : below ∈ child.2.erasable (Visit.found [group] child.2)) :
      group.length ≤ below.length := by
    rcases List.mem_map.mp (List.mem_filter.mp hbelow).1 with ⟨place, hplace, rfl⟩
    exact length_le_of_mem_found hroot (hvalue.of_mem_children hchild) hplace
  have hinside := sequence_setChild_prunes
    (fun child => throughout (descend erase none true false false group)
      (location.child child.1) child.2)
    (fun child => child.2.erasable (Visit.found [group] child.2)) hvalue htarget
    (fun child hchild hempty => ?_) (fun child hchild => hchildren child hchild _)
  · intro tally hok
    simp only [throughoutContainer] at hok ⊢
    generalize Edit.sequence value.children _ {} value = inside at hinside hok ⊢
    cases hresult : inside.result with
    | error error =>
      rw [hresult] at hok
      cases hok
    | ok before =>
      rcases hinside before hresult with ⟨hbefore, hcount⟩
      simp only [hresult] at hok ⊢
      rcases Outcome.map_eq_ok_iff.mp hok with ⟨done, hdone, rfl⟩
      rw [hbefore] at hdone ⊢
      -- The children have been searched by now.  What was deleted in them lies deeper than the
      -- group leads from here, so that the group still finds all that it found in the whole.
      have hdeeper (below : Location) (hbelow : decide (below ∈ value.children.flatMap fun child =>
          (child.2.erasable (Visit.found [group] child.2)).map (child.1 :: ·)) = true) :
          group.length < below.length := by
        rcases List.mem_flatMap.mp (of_decide_eq_true hbelow) with ⟨child, hchild, hmem⟩
        rcases List.mem_map.mp hmem with ⟨deeper, hdeeper, rfl⟩
        exact Nat.lt_succ_of_le (hdeep child hchild deeper hdeeper)
      obtain ⟨hafter, htotal⟩ := descend_erase_prunes hgroup hroot hdistinct hvalue hdeeper
        true false false location done hdone
      rw [erasable_found hgroup hroot hvalue htarget]
      constructor
      · rw [hafter]
        congr 1
        funext below
        simp only [List.mem_append, Bool.decide_or, Bool.or_comm]
      · rw [Tally.add, hcount, htotal, List.length_append, Nat.add_comm]
  · have hlength := hdeep child hchild [] hempty
    exact hgroup (List.length_eq_zero_iff.mp (Nat.le_zero.mp hlength))

/-- A search inside a value prunes what it finds, less the fields that may not be
written. -/
theorem throughout_erase_prunes {group : List Segment} (hgroup : group ≠ []) (hroot : .root ∉ group)
    (hdistinct : ∀ entries, .union entries ∈ group → (entries.map Selection.keyOf).Nodup)
    (hvalue : value.WellFormed) (location : Location) :
    (throughout (descend erase none true false false group) location value).Prunes value
      (fun below => decide (below ∈ value.erasable (Visit.found [group] value)))
      (value.erasable (Visit.found [group] value)).length := by
  induction value using Value.induct_children generalizing location with
  | hstep value ih =>
    have hcontainer := throughoutContainer_erase_prunes hgroup hroot hdistinct hvalue.target
      (Value.target_target value)
      (fun child hmem => ih child hmem (hvalue.target.of_mem_children hmem)) location
    rw [Visit.found_target, Value.erasable_target] at hcontainer
    rw [throughout_eq]
    exact hcontainer.atTarget_whole

/-- Segments followed by a search lead away from where they start. -/
theorem ne_nil_of_mem_reach_found {group : List Segment} {searches : List (List Segment)}
    (hgroup : group ≠ []) (hroot : .root ∉ group) (hvalue : value.WellFormed)
    {place : Location × Value}
    (hplace : place ∈ Visit.reach (Visit.found (group :: searches)) segments value) :
    place.1 ≠ [] := by
  rcases (Visit.mem_reach_iff hvalue).mp hplace with ⟨own, middle, later, hleads, hlater, hsame⟩
  have hlength := length_le_of_mem_found hroot (hvalue.valueAt hleads.valueAt) hlater
  intro hempty
  rw [hsame, List.append_eq_nil_iff] at hempty
  rw [hempty.2] at hlength
  exact hgroup (List.length_eq_zero_iff.mp (Nat.le_zero.mp hlength))

/-- The first group of a path prunes what the search after it finds, less the fields that
may not be written. -/
theorem descend_search_prunes {group : List Segment} (hgroup : group ≠ []) (hroot : .root ∉ group)
    (hsearched : ∀ entries, .union entries ∈ group → (entries.map Selection.keyOf).Nodup)
    (hdistinct : ∀ entries, .union entries ∈ segments → (entries.map Selection.keyOf).Nodup)
    (hvalue : value.WellFormed) (searching strict creating : Bool) (location : Location) :
    (descend erase (some (throughout (descend erase none true false false group))) searching strict
      creating segments location value).Prunes value
      (fun below => decide
        (below ∈ value.erasable (Visit.reach (Visit.found [group]) segments value)))
      (value.erasable (Visit.reach (Visit.found [group]) segments value)).length := by
  induction segments generalizing value searching strict creating location with
  | nil =>
    rw [Visit.reach, Visit.found_target]
    exact throughout_erase_prunes hgroup hroot hsearched hvalue location
  | cons segment rest ih =>
    have hunions (entries : List Selector) (hmem : .union entries ∈ rest) :
        (entries.map Selection.keyOf).Nodup :=
      hdistinct entries (List.mem_cons_of_mem _ hmem)
    by_cases hsegment : segment = .root
    · subst hsegment
      exact ih hunions hvalue false strict creating location
    · have hunion (entries : List Selector) (hsame : segment = .union entries) :
          (entries.map Selection.keyOf).Nodup :=
        hdistinct entries (hsame ▸ List.mem_cons_self)
      have hcontainer := hvalue.target
      have htarget := Value.target_target value
      rw [descend_erase_segment hsegment, ← Visit.reach_target, ← Value.erasable_target]
      apply Edit.Prunes.atTarget_whole
      generalize value.target = container at hcontainer htarget ⊢
      cases hselect : Selection.select
          { operation := .delete, location, strict, create := false, searching }
          container segment with
      | error error =>
        intro tally hok
        cases hok
      | ok steps =>
        rcases Selection.steps_of_select rfl hselect with rfl
        have hspares : Value.SparesChildren fun _ => false := fun _ => rfl
        have hbelow (child : Value) (hchild : child.WellFormed) :
            ∀ place ∈ Visit.reach (Visit.found [group]) rest child, place.1 ≠ [] :=
          fun _ => ne_nil_of_mem_reach_found hgroup hroot hchild
        have hpruned := sequence_reach_prunes
          (descend erase (some (throughout (descend erase none true false false group)))
            false (strict && !segment.isMultiValued) true rest)
          location hsegment hunion hcontainer htarget hspares hbelow fun step child hchild => ?_
        · simp only [Value.prune_nothing, Bool.false_or] at hpruned
          exact hpruned
        · simpa only [Value.prune_nothing, Bool.false_or] using
            ih hunions hchild false (strict && !segment.isMultiValued) true (location.child step)

/-! ## Whole paths -/

theorem nil_notMem_erasable {trace : Visit.Trace} (htrace : ∀ place ∈ trace, place.1 ≠ []) :
    [] ∉ value.erasable trace := by
  intro hmem
  rcases List.mem_map.mp (List.mem_filter.mp hmem).1 with ⟨place, hplace, hempty⟩
  exact htrace place hplace hempty

/-- A deletion without a search empties the root if it has no segments, and prunes it
otherwise. -/
theorem descend_erase_whole (hroot : .root ∉ segments)
    (hdistinct : ∀ entries, .union entries ∈ segments → (entries.map Selection.keyOf).Nodup)
    (hvalue : value.WellFormed) {tally : Tally}
    (hok : (descend erase none false true true segments [] value).result = .ok tally) :
    (descend erase none false true true segments [] value).value =
        (if [] ∈ value.erasable (Visit.reach (Visit.found []) segments value) then value.zeroed
        else value.prune fun location =>
          decide (location ∈ value.erasable (Visit.reach (Visit.found []) segments value))) ∧
      tally.count = (value.erasable (Visit.reach (Visit.found []) segments value)).length := by
  by_cases hsegments : segments = []
  · subst hsegments
    rcases Except.ok.inj hok with rfl
    exact ⟨rfl, rfl⟩
  · have hnothing (location : Location) (hfalse : (fun _ : Location => false) location = true) :
        segments.length < location.length := absurd hfalse Bool.false_ne_true
    have hpruned := descend_erase_prunes hsegments hroot hdistinct hvalue
      hnothing false true true []
    simp only [Value.prune_nothing, Bool.false_or] at hpruned
    rw [if_neg (nil_notMem_erasable fun place => ne_nil_of_mem_reach hsegments hroot hvalue)]
    exact hpruned tally hok

/-- A deletion along a path empties the root if the path is that of the root, and prunes
it otherwise. -/
theorem descend_path_erases {root : Value} {path : Path} (hroot : root.WellFormed)
    (hpath : path.IsCanonical) (hsingle : path.searches.length ≤ 1)
    (hdistinct : path.UnionsDistinct) {tally : Tally}
    (hok : (descend erase (search erase path.searches) false true true path.first [] root).result =
      .ok tally) :
    (descend erase (search erase path.searches) false true true path.first [] root).value =
        (if [] ∈ root.erasable (root.reached path) then root.zeroed
        else root.prune fun location => decide (location ∈ root.erasable (root.reached path))) ∧
      tally.count = (root.erasable (root.reached path)).length := by
  have hunions (group : List Segment) (hmem : group ∈ path.groups) (entries : List Selector)
      (hunion : .union entries ∈ group) : (entries.map Selection.keyOf).Nodup :=
    hdistinct entries (List.mem_flatten.mpr ⟨group, hmem, hunion⟩)
  rw [Value.reached]
  cases hsearches : path.searches with
  | nil =>
    rw [hsearches] at hok
    have hfirst := hunions path.first List.mem_cons_self
    have htail := hpath.root_first
    generalize path.first = first at hok hfirst htail ⊢
    rcases first with _ | ⟨segment, rest⟩
    · exact descend_erase_whole (by simp) hfirst hroot hok
    · by_cases hmark : segment = .root
      · subst hmark
        exact descend_erase_whole htail
          (fun entries hmem => hfirst entries (List.mem_cons_of_mem _ hmem)) hroot hok
      · exact descend_erase_whole (by simpa [Ne.symm hmark] using htail) hfirst hroot hok
  | cons group later =>
    rw [hsearches] at hok hsingle
    obtain rfl : later = [] := by simpa using hsingle
    have hmem : group ∈ path.searches := hsearches ▸ List.mem_cons_self
    have hgroup := hpath.search_ne_nil group hmem
    have hmark := hpath.root_notMem_search group hmem
    have hpruned := descend_search_prunes hgroup hmark (hunions group (List.mem_cons_of_mem _ hmem))
      (hunions path.first List.mem_cons_self) hroot false true true []
    rw [if_neg (nil_notMem_erasable fun place => ne_nil_of_mem_reach_found hgroup hmark hroot)]
    exact hpruned tally hok

end Action

namespace Value

/-- A deletion that succeeds has edited the root along the path. -/
theorem eraseAt_eq_ok {root after : Value} {path : Path} {count : Nat}
    (hok : root.eraseAt path = (after, .ok count)) :
    ∃ tally, (Action.descend .erase (Action.search .erase path.searches) false true true
        path.first [] root).result = .ok tally ∧
      (Action.descend .erase (Action.search .erase path.searches) false true true path.first []
        root).value = after ∧ tally.count = count := by
  rw [eraseAt, Action.run] at hok
  split at hok
  · cases hok
  · rename_i tally hresult
    split at hok
    · cases hok
      exact ⟨tally, hresult, rfl, rfl⟩
    · cases hok

/-- A deletion on its only way that fails leaves the root as it is. -/
theorem eraseAt_fails {root after : Value} {path : Path} {error : AccessError}
    (hsingle : path.isMultiValued = false) (hfails : root.eraseAt path = (after, .error error)) :
    after = root := by
  obtain ⟨hnone, hfirst⟩ := Path.searches_eq_nil hsingle
  have hsettles := Action.descend_erase_settles hfirst false true true [] root
  rw [eraseAt, Action.run, hnone] at hfails
  dsimp only [Action.search] at hfails
  rcases hsettles with ⟨tally, hresult, hmatched⟩ | hsame
  · rw [hresult] at hfails
    simp [hmatched] at hfails
  · split at hfails
    · cases hfails
      exact hsame
    · split at hfails
      · cases hfails
      · cases hfails
        exact hsame

/-- A deletion along a path that a text spells, with one search at most and without unions
that name a child twice: if the places it would visit can be visited and it succeeds, it
counts those of them that are not fields that may not be written, and leaves what pruning
leaves of the root, or the emptied root if the path is that of the root.  On its only way
it leaves the root as it is when it fails. -/
theorem eraseAt_prunes {root : Value} {text : String} {path : Path}
    (hparse : Path.parse text = .ok path) (hroot : root.WellFormed)
    (hsingle : path.searches.length ≤ 1) (hdistinct : path.UnionsDistinct) :
    (∀ after count, (root.visits path).outcome = .ok () → root.eraseAt path = (after, .ok count) →
      let doomed := root.erasable (root.visits path).collected
      doomed.Nodup ∧ count = doomed.length ∧
        after = if [] ∈ doomed then root.zeroed
          else root.prune fun location => decide (location ∈ doomed)) ∧
    ∀ after error, path.isMultiValued = false → root.eraseAt path = (after, .error error) →
      after = root := by
  constructor
  · intro after count hvisits hok
    rcases eraseAt_eq_ok hok with ⟨tally, hresult, hafter, hcount⟩
    obtain ⟨hvalue, htotal⟩ := Action.descend_path_erases hroot (Path.isCanonical_of_parse hparse)
      hsingle hdistinct hresult
    rw [collected_visits hvisits]
    refine ⟨(nodup_reached hroot hsingle hdistinct).filter _, ?_, ?_⟩
    · rw [← hcount, htotal]
    · rw [← hafter, hvalue]
  · intro after error hmulti hfails
    exact eraseAt_fails hmulti hfails

/-- A name is deleted wherever a search finds it, inside a deleted entry too. -/
theorem eraseAt_everywhere :
    let root : Value := .map [("a", .map [("a", .int 1)]),
      ("c", .ofItems #[.map [("a", .int 2)], .int 5])]
    let path : Path := { searches := [[.key "a"]] }
    Path.parse "..a" = .ok path ∧
      root.eraseAt path = (.map [("c", .ofItems #[.map [], .int 5])], .ok 3) ∧
      3 = (root.erasable (root.visits path).collected).length := by
  intro root path
  have hparse : Path.parse "..a" = .ok path := by
    cbv
  have hroot : root.WellFormed := by
    simp [root, ofItems, Sequence.growable, Entries.keys]
  have hok : root.eraseAt path = (.map [("c", .ofItems #[.map [], .int 5])], .ok 3) := by
    cbv
  have hvisits : (root.visits path).outcome = .ok () := by
    cbv
  obtain ⟨hprunes, _⟩ := eraseAt_prunes hparse hroot (by decide)
    (by simp [path, Path.UnionsDistinct, Path.segments, Path.groups])
  exact ⟨hparse, hok, (hprunes _ _ hvisits hok).2.1⟩

end Value

end NestedData
