import Mathlib
import NestedData.Proofs.Access.Deletions
import NestedData.Proofs.Access.Reaching
import NestedData.Proofs.Value.Overwriting

/-!
# Assigning wherever a search finds something

This module follows an assignment that searches for one segment everywhere.  The search
goes inside out, so it meets every container with its children still in place, although
what is inside them may have been written already, and what has been written is not
searched.

Main results:

- `Action.sequence_assignMember`: assigning to children overwrites them, however often
  they are named.
- `Action.throughout_assign`: a search overwrites the places that it finds.
- `Value.setAt_search`: an assignment by search overwrites what a visit finds, counts the
  visits, and fails without a change when there are none.
-/

namespace NestedData

/-! ## Selecting while searching -/

/-- While a segment is searched for, selecting is never a fault. -/
theorem Selection.select_of_searching {selection : Selection} (hlenient : selection.strict = false)
    (hsearching : selection.searching = true) (hcreate : selection.create = false)
    (container : Value) (segment : Segment) :
    selection.select container segment = .ok (segment.steps container) := by
  have hmiss (value : Value) (obstacle : Obstacle) : selection.miss value obstacle = .ok [] :=
    miss_of_lenient hlenient value obstacle
  have hok : ∃ steps, selection.select container segment = .ok steps := by
    cases container with
    | map entries =>
      cases segment <;> simp only [select, selectInMap, selectEntry, hmiss] <;>
        first | exact ⟨_, rfl⟩ | (split <;> exact ⟨_, rfl⟩)
    | record aggregate =>
      cases segment with
      | key name =>
        simp only [select, selectInRecord, hmiss, hsearching]
        cases aggregate.field? name with
        | none => exact ⟨_, rfl⟩
        | some field => cases hexported : field.exported <;> simp [hexported]
      | wildcard => exact ⟨_, rfl⟩
      | union selectors => exact ⟨_, rfl⟩
      | _ => exact ⟨_, hmiss _ _⟩
    | list sequence =>
      cases segment with
      | index position =>
        simp only [select, selectInList, hmiss]
        split
        · exact ⟨_, rfl⟩
        · split <;> exact ⟨_, rfl⟩
      | key name => exact ⟨_, hmiss _ _⟩
      | _ => exact ⟨_, rfl⟩
    | _ => exact ⟨_, hmiss _ _⟩
  rcases hok with ⟨steps, hsteps⟩
  rw [hsteps, steps_of_select hcreate hsteps]

/-! ## Counting changes -/

namespace Tally

/-- So many changes, at places that are selected. -/
def counting {α : Type} (things : List α) : Tally :=
  { count := things.length, matched := !things.isEmpty }

theorem add_assoc (first second third : Tally) :
    (first.add second).add third = first.add (second.add third) := by
  simp [add, Nat.add_assoc, Bool.or_assoc]

theorem add_comm (first second : Tally) : first.add second = second.add first := by
  simp [add, Nat.add_comm, Bool.or_comm]

theorem counting_append {α : Type} (first second : List α) :
    counting (first ++ second) = (counting first).add (counting second) := by
  cases first with
  | nil => simp [counting, add]
  | cons thing rest => simp [counting, add, Nat.add_right_comm]

theorem counting_cons {α : Type} (thing : α) (rest : List α) :
    counting (thing :: rest) = one.add (counting rest) := by
  simp [counting, add, one, Nat.add_comm]

@[simp]
theorem counting_map {α β : Type} (f : α → β) (things : List α) :
    counting (things.map f) = counting things := by
  simp [counting]

/-- The changes at several things are counted one thing after the other. -/
theorem counting_flatMap_congr {α β γ : Type} {things : List α} {f : α → List β} {g : α → List γ}
    (hsame : ∀ thing ∈ things, counting (f thing) = counting (g thing)) :
    counting (things.flatMap f) = counting (things.flatMap g) := by
  induction things with
  | nil => rfl
  | cons thing rest ih =>
    rw [List.flatMap_cons, List.flatMap_cons, counting_append, counting_append,
      hsame thing List.mem_cons_self,
      ih fun other hother => hsame other (List.mem_cons_of_mem _ hother)]

end Tally

namespace Action

variable {container new : Value} {shaping : Shaping} {location : Location} {strict : Bool}
  {step : Step}

/-! ## Assigning to children -/

/-- Where a step leads to a child, there is room for it. -/
theorem makeRoom_of_present (hpresent : (container.child? step).isSome = true) :
    makeRoom shaping location step container = container := by
  cases container with
  | map entries =>
    cases step with
    | key name => exact if_pos hpresent
    | index position => rfl
  | list sequence =>
    cases step with
    | key name => rfl
    | index position =>
      have hinside := Value.isSome_child?_index.mp hpresent
      have hmissing : position + 1 - sequence.size = 0 := by omega
      simp only [makeRoom, padTo, Sequence.pad, hmissing]
      simp
  | record aggregate => cases step <;> rfl
  | _ => rfl

/-- The assignment to a child that is there writes it, unless it is a field that may not
be written. -/
theorem assignMember_of_present {child : Value} (hchild : container.child? step = some child)
    (hwritable : container.isReadOnly step = false) :
    assignMember shaping new location strict step container =
      { value := container.setChild step (child.assign new), result := .ok .one } := by
  cases container with
  | map entries =>
    cases step with
    | index position => simp [Value.child?] at hchild
    | key name =>
      have hvalue : Entries.get? entries name = some child := hchild
      have hpresent : Entries.contains entries name = true := by
        simp [Entries.contains, hvalue]
      simp only [assignMember, hvalue, Value.setChild, if_pos hpresent]
  | record aggregate =>
    cases step with
    | index position => simp [Value.child?] at hchild
    | key name =>
      rcases Record.get?_eq_some_iff.mp hchild with ⟨field, hfield, _, rfl⟩
      have hmutable : field.mutable = true := by
        simpa [Value.isReadOnly, hfield] using hwritable
      simp only [assignMember, hfield, hmutable, if_true]
      rfl
  | list sequence =>
    cases step with
    | key name => simp [Value.child?] at hchild
    | index position =>
      have hpadded : makeRoom shaping location (.index position) (.list sequence) =
          .list sequence := makeRoom_of_present (by rw [hchild]; rfl)
      have hroom : padTo shaping location position sequence = sequence :=
        Value.list.inj hpadded
      have hitem : sequence.get? position = some child := hchild
      simp only [assignMember, hroom, hitem]
      rfl
  | _ => simp [Value.child?] at hchild

/-- Assigning to children overwrites them, however often they are named. -/
theorem sequence_assignMember (shaping : Shaping) (new : Value) (location : Location)
    (strict : Bool) {steps : List Step} (hdistinct : container.HasDistinctSteps)
    (hpresent : ∀ step ∈ steps, (container.child? step).isSome = true)
    (hwritable : ∀ step ∈ steps, container.isReadOnly step = false) (before : Tally) :
    Edit.sequence steps (assignMember shaping new location strict) before container =
      { value := container.rebuild fun step child =>
          some (if step ∈ steps then child.assign new else child)
        result := .ok (before.add (.counting steps)) } := by
  induction steps generalizing container before with
  | nil => simp [Value.rebuild_id, Tally.counting, Tally.add]
  | cons step rest ih =>
    obtain ⟨child, hchild⟩ := Option.isSome_iff_exists.mp (hpresent step List.mem_cons_self)
    have hset : container.setChild step (child.assign new) =
        container.rebuild fun other present =>
          some (if other = step then present.assign new else present) := by
      rw [Value.setChild_eq_rebuild hdistinct (by rw [hchild]; rfl)]
      refine Value.rebuild_congr fun other hother => ?_
      by_cases hsame : other.1 = step
      · have hfound := (Value.mem_children_iff hdistinct).mp hother
        rw [hsame, hchild] at hfound
        rw [if_pos hsame, if_pos hsame, Option.some.inj hfound]
      · rw [if_neg hsame, if_neg hsame]
    rw [Edit.sequence_cons,
      assignMember_of_present hchild (hwritable step List.mem_cons_self), hset]
    simp only
    rw [ih hdistinct.rebuild]
    · rw [Tally.counting_cons, Tally.add_assoc, Value.rebuild_keep_keep]
      congr 1
      refine Value.rebuild_congr fun other _ => ?_
      by_cases hsame : other.1 = step <;> by_cases hmem : other.1 ∈ rest <;>
        simp [hsame, hmem, Value.assign_assign]
    · intro other hother
      rw [Value.child?_rebuild, Option.isSome_map]
      exact hpresent other (List.mem_cons_of_mem _ hother)
    · intro other hother
      rw [Value.isReadOnly_rebuild]
      exact hwritable other (List.mem_cons_of_mem _ hother)

/-- Replacing distinct children one after the other is one change. -/
theorem sequence_setChild {α : Type} {things : List (Step × Value)} (inner : Step × Value → Edit)
    (changes : Step × Value → List α) (hdistinct : container.HasDistinctSteps)
    (hsteps : (things.map Prod.fst).Nodup)
    (hpresent : ∀ thing ∈ things, container.child? thing.1 = some thing.2)
    (hinner : ∀ thing ∈ things, (inner thing).result = .ok (.counting (changes thing)))
    (before : Tally) :
    Edit.sequence things (fun child current =>
        { inner child with value := current.setChild child.1 (inner child).value }) before
        container =
      { value := container.rebuild fun step child =>
          some (if step ∈ things.map Prod.fst then (inner (step, child)).value else child)
        result := .ok (before.add (.counting (things.flatMap changes))) } := by
  induction things generalizing container before with
  | nil => simp [Value.rebuild_id, Tally.counting, Tally.add]
  | cons thing rest ih =>
    rw [List.map_cons, List.nodup_cons] at hsteps
    have hchild := hpresent thing List.mem_cons_self
    have hthere : (container.child? thing.1).isSome = true := by
      rw [hchild]
      rfl
    have hset := Value.setChild_eq_rebuild hdistinct hthere (inner thing).value
    rw [Edit.sequence_cons, hinner thing List.mem_cons_self, hset]
    simp only
    rw [ih hdistinct.rebuild hsteps.2]
    · rw [List.flatMap_cons, Tally.counting_append, Tally.add_assoc, Value.rebuild_keep_keep]
      congr 1
      refine Value.rebuild_congr fun other hother => ?_
      by_cases hsame : other.1 = thing.1
      · have hfound := (Value.mem_children_iff hdistinct).mp hother
        rw [hsame, hchild] at hfound
        have hother : other = thing := Prod.ext hsame (Option.some.inj hfound).symm
        simp [hother, hsteps.1]
      · simp only [List.map_cons, List.mem_cons, hsame, false_or, if_false]
    · intro other hother
      have hne : other.1 ≠ thing.1 := fun hsame => hsteps.1 (hsame ▸ List.mem_map_of_mem hother)
      rw [Value.child?_rebuild, hpresent other (List.mem_cons_of_mem _ hother), Option.map_some,
        if_neg hne]
    · exact fun other hother => hinner other (List.mem_cons_of_mem _ hother)

/-- Overwriting inside every child is one change. -/
theorem sequence_overwrite {α : Type} {chosen : Value → Location → Bool}
    (inner : Step × Value → Edit) (changes : Value → List α)
    (hdistinct : container.HasDistinctSteps)
    (hinner : ∀ child ∈ container.children, inner child =
      { value := child.2.overwrite new (chosen child.2)
        result := .ok (.counting (changes child.2)) }) :
    Edit.sequence container.children (fun child current =>
        { inner child with value := current.setChild child.1 (inner child).value }) {} container =
      { value := container.rebuild fun _ child => some (child.overwrite new (chosen child))
        result := .ok (.counting (container.children.flatMap fun child => changes child.2)) } := by
  rw [sequence_setChild inner (fun child => changes child.2) hdistinct
    (Value.nodup_steps hdistinct) (fun child hchild => (Value.mem_children_iff hdistinct).mp hchild)
    (fun child hchild => by rw [hinner child hchild]), Tally.empty_add]
  congr 1
  refine Value.rebuild_congr fun child hchild => ?_
  rw [if_pos (List.mem_map_of_mem hchild), hinner child hchild]

end Action

/-! ## What a search finds -/

namespace Visit

variable {segment : Segment} {value container : Value}

/-- Whether a search for a segment finds a place. -/
def finds (segment : Segment) (value : Value) (location : Location) : Bool :=
  decide (location ∈ (found [[segment]] value).map Prod.fst)

@[simp]
theorem finds_target (segment : Segment) (value : Value) :
    finds segment value.target = finds segment value := by
  funext location
  rw [finds, found_target, finds]

/-- A search in a container finds the children that the segment picks, and what it finds
below children. -/
theorem found_container (hsegment : segment ≠ .root) (hcontainer : container.WellFormed)
    (htarget : container.target = container) :
    (found [[segment]] container).map Prod.fst =
      (segment.steps container).map ([·]) ++ container.children.flatMap fun child =>
        ((found [[segment]] child.2).map Prod.fst).map (child.1 :: ·) := by
  rw [found_cons, List.map_append, htarget, List.map_flatMap]
  congr 1
  · rw [reach_segment hsegment, htarget, List.map_flatMap,
      List.flatMap_congr (g := fun step => [[step]]), ← List.map_eq_flatMap]
    intro step hstep
    obtain ⟨child, hchild⟩ :=
      Option.isSome_iff_exists.mp ((Segment.mem_steps_iff hcontainer).mp hstep).1
    simp [hchild, reach, found, Location.below]
  · refine List.flatMap_congr fun child _ => ?_
    rw [List.map_map, List.map_map]
    rfl

theorem finds_nil (hsegment : segment ≠ .root) (hvalue : value.WellFormed) :
    finds segment value [] = false := by
  rw [← finds_target, finds, found_container hsegment hvalue.target (Value.target_target value)]
  simp

/-- A search finds the children that the segment picks. -/
theorem finds_step (hsegment : segment ≠ .root) (hcontainer : container.WellFormed)
    (htarget : container.target = container) {step : Step} :
    finds segment container [step] = decide (step ∈ segment.steps container) := by
  rw [finds, found_container hsegment hcontainer htarget, decide_eq_decide, List.mem_append]
  constructor
  · rintro (hpicked | hbelow)
    · simpa using hpicked
    · rcases List.mem_flatMap.mp hbelow with ⟨child, hchild, hmem⟩
      rcases List.mem_map.mp hmem with ⟨later, hlater, hsame⟩
      obtain rfl : later = [] := (List.cons.inj hsame).2
      have hnothing := finds_nil hsegment (hcontainer.of_mem_children hchild)
      exact absurd hlater (of_decide_eq_false hnothing)
  · intro hpicked
    exact .inl (List.mem_map_of_mem hpicked)

/-- Below a child, a search finds what it finds from there. -/
theorem finds_cons (hsegment : segment ≠ .root) (hcontainer : container.WellFormed)
    (htarget : container.target = container) {step : Step} {child : Value}
    (hchild : container.child? step = some child) {rest : Location} (hrest : rest ≠ []) :
    finds segment container (step :: rest) = finds segment child rest := by
  rw [finds, found_container hsegment hcontainer htarget, finds, decide_eq_decide,
    List.mem_append]
  constructor
  · rintro (hpicked | hbelow)
    · simp [hrest] at hpicked
    · rcases List.mem_flatMap.mp hbelow with ⟨other, hother, hmem⟩
      rcases List.mem_map.mp hmem with ⟨later, hlater, hsame⟩
      have hfound := (Value.mem_children_iff hcontainer.hasDistinctSteps).mp hother
      cases hsame
      obtain rfl : other.2 = child := Option.some.inj (hfound.symm.trans hchild)
      exact hlater
  · intro hfound
    refine .inr (List.mem_flatMap.mpr ⟨(step, child), ?_, List.mem_map_of_mem hfound⟩)
    exact Value.mem_children_of_child? hchild

/-- As many children are picked, and places found below children, as places are found. -/
theorem counting_found (hsegment : segment ≠ .root) (hcontainer : container.WellFormed)
    (htarget : container.target = container) :
    Tally.counting (found [[segment]] container) =
      (Tally.counting (container.children.flatMap fun child => found [[segment]] child.2)).add
        (.counting (segment.steps container)) := by
  rw [← Tally.counting_map Prod.fst, found_container hsegment hcontainer htarget,
    Tally.counting_append, Tally.add_comm, Tally.counting_map]
  congr 1
  exact Tally.counting_flatMap_congr fun child _ => by simp

/-- A search for a segment meets no fault. -/
theorem search_runs {σ : Type} {operation : Operation} {visit : Visitor σ}
    {f : σ → Location × Value → σ} (hsegment : segment ≠ .root)
    (hvisit : ∀ location value collected,
      visit location value collected = .yield (f collected (location, value)))
    (location : Location) (collected : σ) :
    search operation visit [[segment]] location value collected =
      .running (((found [[segment]] value).map location.below).foldl f collected) := by
  refine (search_traces f visit hvisit operation [[segment]] location value
    collected).resolve_left ?_
  rintro ⟨seen, error, hfailed⟩
  have harrive (location : Location) (value : Value) (collected : σ) :
      search operation visit [] location value collected =
        .running (f collected (location, value)) := by
    simp [search, hvisit]
  rw [search,
    through_running (fun place => (ends [segment] place.2).map place.1.below) (f := f)] at hfailed
  · cases hfailed
  · intro place _ collected
    rw [descend_segment hsegment, Selection.select_of_searching rfl rfl rfl, ends,
      reach_segment hsegment, List.map_flatMap]
    refine through_running _ (fun step _ collected => ?_) collected
    rw [List.map_map, Location.below_below]
    cases place.2.target.child? step with
    | none => rfl
    | some child => simp [descend, harrive, reach, found, Location.below, Location.child]

end Visit

namespace Action

variable {value new : Value} {shaping : Shaping} {segment : Segment}

/-! ## Assigning wherever a search finds something -/

/-- What is searched for is assigned to in the container at the end of the references. -/
theorem descend_assign_searched (hsegment : segment ≠ .root) (location : Location) (value : Value) :
    descend (assign shaping new) none true false false [segment] location value =
      Edit.atTarget (fun target => Edit.sequence (segment.steps target)
        (assignMember shaping new location false) {} target) value := by
  have hselect (target : Value) : Selection.select
      { operation := .set, location, strict := false, create := false, searching := true }
      target segment = .ok (segment.steps target) :=
    Selection.select_of_searching rfl rfl rfl target segment
  cases segment with
  | root => exact absurd rfl hsegment
  | _ =>
    simp only [descend]
    congr 1
    funext target
    simp [assign, hselect]

/-- A search in a container overwrites the places that it finds, if it does in the
children. -/
theorem throughoutContainer_assign (shaping : Shaping) (new : Value) {container : Value}
    (hsegment : segment ≠ .root)
    (hcontainer : container.WellFormed) (htarget : container.target = container)
    (hwritable : ∀ step ∈ segment.steps container, container.isReadOnly step = false)
    (hchildren : ∀ child ∈ container.children, ∀ location,
      throughout (descend (assign shaping new) none true false false [segment]) location child.2 =
        { value := child.2.overwrite new (Visit.finds segment child.2)
          result := .ok (.counting (Visit.found [[segment]] child.2)) }) (location : Location) :
    throughoutContainer (descend (assign shaping new) none true false false [segment]) location
        container =
      { value := container.overwrite new (Visit.finds segment container)
        result := .ok (.counting (Visit.found [[segment]] container)) } := by
  have hdistinct := hcontainer.hasDistinctSteps
  have hfound {child : Step × Value} (hchild : child ∈ container.children) :
      container.child? child.1 = some child.2 :=
    (Value.mem_children_iff hdistinct).mp hchild
  have hinside := sequence_overwrite
    (fun child => throughout (descend (assign shaping new) none true false false [segment])
      (location.child child.1) child.2)
    (Visit.found [[segment]]) hdistinct fun child hchild => hchildren child hchild _
  have hpicked (step : Step) (hstep : step ∈ segment.steps container) :
      (container.child? step).isSome = true :=
    ((Segment.mem_steps_iff hcontainer).mp hstep).1
  have hlast := sequence_assignMember shaping new location false
    (hdistinct.rebuild : (container.rebuild fun step child =>
      some (child.overwrite new (Visit.finds segment child))).HasDistinctSteps)
    (fun step (hstep : step ∈ segment.steps container) => by
      rw [Value.child?_rebuild, Option.isSome_map, hpicked step hstep])
    (fun step hstep => by rw [Value.isReadOnly_rebuild, hwritable step hstep]) {}
  rw [throughoutContainer, hinside]
  simp only
  rw [descend_assign_searched hsegment, Edit.atTarget_of_not_ref ?_, Value.steps_rebuild, hlast,
    Value.rebuild_keep_keep, Value.overwrite_eq_rebuild htarget]
  · simp only [Except.map, Tally.empty_add]
    rw [Visit.counting_found hsegment hcontainer htarget]
    congr 1
    refine Value.rebuild_congr fun child hchild => ?_
    rw [Value.overwriteChild, Visit.finds_step hsegment hcontainer htarget]
    simp only [decide_eq_true_eq, Value.assign_overwrite]
    rw [Value.overwrite_congr child.2 fun rest hrest =>
      Visit.finds_cons hsegment hcontainer htarget (hfound hchild) hrest]
  · intro referent hreferent
    have hplain := Value.target_ne_ref (container.rebuild fun step child =>
      some (child.overwrite new (Visit.finds segment child))) referent
    rw [Value.target_rebuild htarget] at hplain
    exact hplain hreferent

/-- A search overwrites the places that it finds, and counts them, if all of them may be
written. -/
theorem throughout_assign (hsegment : segment ≠ .root) (hvalue : value.WellFormed)
    (hwritable : ∀ place, Visit.finds segment value place = true → value.readOnlyAt place = false)
    (location : Location) :
    throughout (descend (assign shaping new) none true false false [segment]) location value =
      { value := value.overwrite new (Visit.finds segment value)
        result := .ok (.counting (Visit.found [[segment]] value)) } := by
  induction value using Value.induct_children generalizing location with
  | hstep value ih =>
    have hfound {child : Step × Value} (hchild : child ∈ value.target.children) :
        value.target.child? child.1 = some child.2 :=
      (Value.mem_children_iff hvalue.target.hasDistinctSteps).mp hchild
    have hcontainer := throughoutContainer_assign shaping new hsegment
      hvalue.target (Value.target_target value)
      (fun step hstep => ?_)
      (fun child hchild => ih child hchild (hvalue.target.child (hfound hchild))
        fun place hplace => ?_) location
    · rw [throughout_eq, Edit.atTarget_eq, hcontainer, Visit.found_target, Visit.finds_target,
        Value.overwrite_eq_mapTarget value]
      simp only
      congr 1
      exact Value.mapTarget_congr rfl
    · have hpicked : Visit.finds segment value [step] = true := by
        rw [← Visit.finds_target,
          Visit.finds_step hsegment hvalue.target (Value.target_target value)]
        exact decide_eq_true hstep
      simpa [Value.readOnlyAt] using hwritable [step] hpicked
    · cases place with
      | nil => rfl
      | cons step rest =>
        have hne : step :: rest ≠ [] := List.cons_ne_nil _ _
        rw [← Value.readOnlyAt_cons (hfound hchild) hne]
        apply hwritable
        rw [← Visit.finds_target, Visit.finds_cons hsegment hvalue.target
          (Value.target_target value) (hfound hchild) hne]
        exact hplace

end Action

/-! ## Assignments by search -/

namespace Value

variable {root new : Value} {shaping : Shaping} {segment : Segment}

theorem visits_search (hsegment : segment ≠ .root) :
    root.visits { first := [.root], searches := [[segment]] } =
      .running (Visit.found [[segment]] root) := by
  rw [visits, forEach, Visit.follow]
  simp only [Visit.descend]
  rw [Visit.search_runs (f := fun seen place => seen ++ [place]) hsegment fun _ _ _ => rfl,
    List.foldl_append_eq_append, Location.below_nil, List.map_id, Visit.found_target]
  exact congrArg Progress.running (List.flatMap_singleton' _)

/-- An assignment by search overwrites the places that the search finds, and fails if there
are none. -/
theorem setAt_found (new : Value) (shaping : Shaping) (hroot : root.WellFormed)
    (hwritable : ∀ location, root.readOnlyAt location = false) (hsegment : segment ≠ .root) :
    root.setAt { first := [.root], searches := [[segment]] } new shaping =
      (root.overwrite new (Visit.finds segment root),
        if Visit.found [[segment]] root = [] then .error
          { operation := .set, path := { first := [.root], searches := [[segment]] },
            value := root.overwrite new (Visit.finds segment root),
            obstacle := .lack .nothingMatched }
        else .ok (Visit.found [[segment]] root).length) := by
  simp only [setAt, Action.run, Action.search, Action.descend]
  rw [Action.throughout_assign hsegment hroot fun location _ => hwritable location]
  cases hfound : Visit.found [[segment]] root with
  | nil => rfl
  | cons place rest => rfl

/-- An assignment that searches for one segment everywhere, in a value without fields that
may not be written: if a visit sees nothing it fails and changes nothing.  Otherwise it
counts what the visit sees and overwrites it, so that the outermost of the places seen hold
what was written; places apart from them hold what they held, and no child is added or
removed outside what is written. -/
theorem setAt_search (hroot : root.WellFormed)
    (hwritable : ∀ location, root.readOnlyAt location = false) (hsegment : segment ≠ .root)
    (new : Value) (shaping : Shaping) :
    let path : Path := { first := [.root], searches := [[segment]] }
    let seen := (root.visits path).collected.map Prod.fst
    (root.visits path).outcome = .ok () ∧
    (seen = [] → ∃ error, root.setAt path new shaping = (root, .error error)) ∧
    (seen ≠ [] → ∃ after, root.setAt path new shaping = (after, .ok seen.length) ∧
      after = root.overwrite new (fun location => decide (location ∈ seen)) ∧
      (∀ location ∈ seen, (∀ other ∈ seen, other <+: location → other = location) →
        after.valueAt? location = some new.target) ∧
      (∀ location, (∀ other ∈ seen, ¬other <+: location ∧ ¬location <+: other) →
        after.valueAt? location = root.valueAt? location) ∧
      ∀ location, (∀ other ∈ seen, ¬other <+: location) →
        (after.valueAt? location).map steps = (root.valueAt? location).map steps) := by
  intro path seen
  have hvisits : root.visits path = .running (Visit.found [[segment]] root) :=
    visits_search hsegment
  have hset := setAt_found new shaping hroot hwritable hsegment
  have hseen : seen = (Visit.found [[segment]] root).map Prod.fst := by
    simp only [seen, hvisits, Progress.collected]
  have hchosen : Visit.finds segment root = fun location => decide (location ∈ seen) := by
    rw [hseen]
    rfl
  have hspared {location : Location} (hapart : ∀ other ∈ seen, ¬other <+: location) :
      ∀ other, other ≠ [] → other <+: location → decide (other ∈ seen) = false :=
    fun other _ hbegins => decide_eq_false fun hmem => hapart other hmem hbegins
  refine ⟨by rw [hvisits]; rfl, fun hnothing => ?_, fun hsome => ?_⟩
  · have hfound : Visit.found [[segment]] root = [] := List.map_eq_nil_iff.mp (hseen ▸ hnothing)
    rw [if_pos hfound, hchosen, overwrite_nothing root fun location _ => by simp [hnothing]] at hset
    exact ⟨_, hset⟩
  · have hfound : Visit.found [[segment]] root ≠ [] := by
      rintro hfound
      exact hsome (by rw [hseen, hfound]; rfl)
    rw [if_neg hfound, hchosen] at hset
    refine ⟨_, by rw [hset, hseen, List.length_map], rfl, fun location hmem houtermost => ?_,
      fun location hapart => ?_, fun location hapart => ?_⟩
    · have hne : location ≠ [] := by
        rintro rfl
        have hnil := Visit.finds_nil hsegment hroot
        rw [hchosen] at hnil
        exact absurd hmem (of_decide_eq_false hnil)
      refine valueAt?_overwrite_of_chosen hne ?_ (decide_eq_true hmem) ?_
      · rw [hseen] at hmem
        rcases List.mem_map.mp hmem with ⟨⟨_, value⟩, hplace, rfl⟩
        rw [← Visit.found_target] at hplace
        have hleads := (Visit.mem_found_iff hroot.target (target_target root)).mp hplace
        rw [← valueAt?_target, hleads.valueAt]
        rfl
      · intro other _ hbegins hother
        exact decide_eq_false fun hmem => hother (houtermost other hmem hbegins)
    · refine valueAt?_overwrite_of_apart (hspared fun other hmem => (hapart other hmem).1) ?_
      intro other hbegins
      exact decide_eq_false fun hmem => (hapart other hmem).2 hbegins
    · rw [valueAt?_overwrite_of_spared (hspared hapart), Option.map_map]
      cases hvalue : root.valueAt? location with
      | none => rfl
      | some value => simp [steps_overwrite (target_of_valueAt? hvalue)]

/-- A name is assigned to wherever a search finds it, behind a reference too, and not in
what has been written. -/
theorem setAt_search_nested :
    let root : Value := .map [("a", .map [("a", .int 1), ("b", .int 2)]),
      ("c", .ofItems #[.ref (.record { name := "T", fields := [{ name := "a", value := .int 3 }] }),
        .int 4])]
    let path : Path := { first := [.root], searches := [[.key "a"]] }
    let seen := (root.visits path).collected.map Prod.fst
    let new : Value := .map [("a", .null)]
    (∀ location, root.readOnlyAt location = false) ∧
      seen = [[.key "a"], [.key "a", .key "a"], [.key "c", .index 0, .key "a"]] ∧
      root.setAt path new .plain =
        (.map [("a", new), ("c", .ofItems
          #[.ref (.record { name := "T", fields := [{ name := "a", value := new }] }), .int 4])],
          .ok 3) ∧
      3 = seen.length := by
  intro root path seen new
  have hroot : root.WellFormed := by
    simp [root, ofItems, Sequence.growable, Entries.keys, Record.names]
  have hfield (step : Step) : isReadOnly (.record
      { name := "T", fields := [{ name := "a", value := .int 3 }] }) step = false := by
    cases step with
    | index position => rfl
    | key name =>
      simp only [isReadOnly, Record.field?, List.find?_singleton]
      split <;> rfl
  have hscalar (number : Int64) (location : Location) :
      (Value.int number).readOnlyAt location = false :=
    readOnlyAt_eq_false _ (fun _ => rfl) (by simp [target, children]) location
  have hrecord := readOnlyAt_eq_false (.ref (.record
    { name := "T", fields := [{ name := "a", value := .int 3 }] })) hfield
    (by simp [target, children, Record.exportedFields, hscalar])
  have hwritable : ∀ location, root.readOnlyAt location = false := by
    refine readOnlyAt_eq_false _ (fun _ => rfl) ?_
    simp only [root, target, children, List.map_cons, List.map_nil, List.forall_mem_cons]
    refine ⟨readOnlyAt_eq_false _ (fun _ => rfl) ?_,
      readOnlyAt_eq_false _ (fun _ => rfl) ?_, by simp⟩
    · simp [target, children, hscalar]
    · simp [target, children, ofItems, Sequence.growable, hscalar, hrecord]
  have hset : root.setAt path new .plain =
        (.map [("a", new), ("c", .ofItems
          #[.ref (.record { name := "T", fields := [{ name := "a", value := new }] }), .int 4])],
          .ok 3) := by
    cbv
  have hseen : (root.visits path).collected.map Prod.fst =
      [[.key "a"], [.key "a", .key "a"], [.key "c", .index 0, .key "a"]] := by
    cbv
  have hkey : Segment.key "a" ≠ .root := by simp
  obtain ⟨_, _, hsome⟩ := setAt_search hroot hwritable hkey new .plain
  obtain ⟨after, hafter, _⟩ := hsome fun hnothing => by
    rw [hseen] at hnothing
    cases hnothing
  rw [hset] at hafter
  exact ⟨hwritable, hseen, hset, Except.ok.inj (Prod.mk.inj hafter).2⟩

end Value

end NestedData
