import NestedData.Proofs.Access.Vacating
import NestedData.Proofs.Access.Visits
import NestedData.Proofs.Value.Pruning

/-!
# Edits that prune

This module says when an edit prunes a value and how edits that prune fit together:
through references, child by child, and for all children that steps lead to.  It also
says which of the places visited a deletion reaches, namely all but the fields that may
not be written.

Main results:

- `Edit.sequence_prunes`: edits that prune distinct children prune the container.
- `Action.sequence_editChild_prunes`: so does following steps to these children.
- `Action.eraseMembers_prunes`: deleting children prunes them.
- `Value.erasable_flatMap`: the places reached below children are reached below the
  container.
-/

namespace NestedData

/-! ## Fields that may not be written -/

namespace Value

/-- Whether a place is a field that may not be written. -/
def readOnlyAt : Value → Location → Bool
  | _, [] => false
  | value, [step] => value.target.isReadOnly step
  | value, step :: rest =>
    match value.target.child? step with
    | some child => child.readOnlyAt rest
    | none => false

/-- The places of a trace, less the fields that may not be written. -/
def erasable (value : Value) (trace : Visit.Trace) : List Location :=
  (trace.map Prod.fst).filter fun location => !value.readOnlyAt location

@[simp]
theorem readOnlyAt_target (value : Value) (location : Location) :
    value.target.readOnlyAt location = value.readOnlyAt location := by
  match location with
  | [] => rfl
  | [step] => simp [readOnlyAt]
  | step :: next :: rest => simp [readOnlyAt]

theorem readOnlyAt_cons {value child : Value} {step : Step} {rest : Location}
    (hchild : value.target.child? step = some child) (hrest : rest ≠ []) :
    value.readOnlyAt (step :: rest) = child.readOnlyAt rest := by
  cases rest with
  | nil => exact absurd rfl hrest
  | cons next later => simp [readOnlyAt, hchild]

/-- A place below a place is seen from there. -/
theorem readOnlyAt_append {value start : Value} {run rest : Location}
    (hrun : value.valueAt? run = some start) (hrest : rest ≠ []) :
    value.readOnlyAt (run ++ rest) = start.readOnlyAt rest := by
  induction run generalizing value with
  | nil =>
    obtain rfl : value.target = start := by simpa [valueAt?] using hrun
    simp
  | cons step later ih =>
    rcases Option.bind_eq_some_iff.mp hrun with ⟨child, hchild, hlater⟩
    rw [List.cons_append, readOnlyAt_cons hchild (by simp [hrest]), ih hlater]

/-- All of a value may be written if all fields of the container at the end of its
references may, and all of what is inside its children. -/
theorem readOnlyAt_eq_false (value : Value)
    (hfields : ∀ step, value.target.isReadOnly step = false)
    (hchildren : ∀ child ∈ value.target.children, ∀ location, child.2.readOnlyAt location = false)
    (location : Location) : value.readOnlyAt location = false := by
  match location with
  | [] => rfl
  | [step] => exact hfields step
  | step :: next :: rest =>
    cases hchild : value.target.child? step with
    | none => simp [readOnlyAt, hchild]
    | some child =>
      rw [readOnlyAt_cons hchild (List.cons_ne_nil _ _)]
      exact hchildren _ (mem_children_of_child? hchild) _

@[simp]
theorem erasable_target (value : Value) (trace : Visit.Trace) :
    value.target.erasable trace = value.erasable trace := by
  simp [erasable]

theorem erasable_append (value : Value) (first second : Visit.Trace) :
    value.erasable (first ++ second) = value.erasable first ++ value.erasable second := by
  simp [erasable]

/-- Places reached below a place are reached from there. -/
theorem erasable_below {value start : Value} {run : Location} {trace : Visit.Trace}
    (hrun : value.valueAt? run = some start) (htrace : ∀ place ∈ trace, place.1 ≠ []) :
    value.erasable (trace.map run.below) = (start.erasable trace).map (run ++ ·) := by
  have hlocations : (trace.map run.below).map Prod.fst = (trace.map Prod.fst).map (run ++ ·) := by
    rw [List.map_map, List.map_map]
    rfl
  rw [erasable, erasable, hlocations, List.filter_map]
  congr 1
  refine List.filter_congr fun location hlocation => ?_
  rcases List.mem_map.mp hlocation with ⟨place, hplace, rfl⟩
  rw [Function.comp_apply, readOnlyAt_append hrun (htrace place hplace)]

/-- Places reached below several places are reached from there. -/
theorem erasable_flatMap {α : Type} {value : Value} {things : List α} (run : α → Location)
    {trace : α → Visit.Trace} {added : α → List Location}
    (hadded : ∀ thing ∈ things,
      value.erasable ((trace thing).map (run thing).below) = (added thing).map (run thing ++ ·)) :
    value.erasable (things.flatMap fun thing => (trace thing).map (run thing).below) =
      things.flatMap fun thing => (added thing).map (run thing ++ ·) := by
  induction things with
  | nil => rfl
  | cons thing rest ih =>
    rw [List.flatMap_cons, erasable_append, hadded thing List.mem_cons_self,
      ih fun other hother => hadded other (List.mem_cons_of_mem _ hother), List.flatMap_cons]

end Value

/-! ## Edits that prune -/

namespace Edit

/-- The edit, if it succeeds, leaves of a value what pruning leaves, and has made so many
changes. -/
def Prunes (edit : Edit) (value : Value) (doomed : Location → Bool) (count : Nat) : Prop :=
  ∀ tally, edit.result = .ok tally → edit.value = value.prune doomed ∧ tally.count = count

/-- An edit at the end of references prunes the value if it prunes what stands there. -/
theorem Prunes.atTarget {edit : Value → Edit} {value : Value} {doomed more : Location → Bool}
    {count : Nat} (hedit : (edit (value.target.prune doomed)).Prunes value.target more count) :
    (Edit.atTarget edit (value.prune doomed)).Prunes value more count := by
  intro tally hok
  rw [atTarget_eq, Value.target_prune] at hok ⊢
  rcases hedit tally hok with ⟨hvalue, hcount⟩
  refine ⟨?_, hcount⟩
  rw [hvalue, Value.mapTarget_prune, Value.prune_eq_mapTarget value more]
  exact Value.mapTarget_congr rfl

/-- So does an edit at the end of references of a value that is not pruned yet. -/
theorem Prunes.atTarget_whole {edit : Value → Edit} {value : Value} {doomed : Location → Bool}
    {count : Nat} (hedit : (edit value.target).Prunes value.target doomed count) :
    (Edit.atTarget edit value).Prunes value doomed count := by
  have hwhole : (edit (value.target.prune fun _ => false)).Prunes value.target doomed count := by
    rwa [Value.prune_nothing]
  have hpruned := Prunes.atTarget hwhole
  rwa [Value.prune_nothing] at hpruned

/-- Edits that each prune one of several distinct children prune the container. -/
theorem sequence_prunes {α : Type} {things : List α} (step : α → Step)
    (added : α → List Location) {edit : α → Value → Edit} {container : Value}
    {doomed : Location → Bool} (hdistinct : (things.map step).Nodup)
    (hadded : ∀ thing ∈ things, [] ∉ added thing) (hspares : Value.SparesChildren doomed)
    (hedit : ∀ thing ∈ things, ∀ before : Location → Bool, Value.SparesChildren before →
      (∀ rest, before (step thing :: rest) = doomed (step thing :: rest)) →
      (edit thing (container.prune before)).Prunes container
        (fun location => before location || decide (location ∈ (added thing).map (step thing :: ·)))
        (added thing).length) {tally done : Tally}
    (hok : (Edit.sequence things edit done (container.prune doomed)).result = .ok tally) :
    (Edit.sequence things edit done (container.prune doomed)).value =
        container.prune (fun location => doomed location ||
          decide (location ∈ things.flatMap fun thing => (added thing).map (step thing :: ·))) ∧
      tally.count = done.count +
        (things.flatMap fun thing => (added thing).map (step thing :: ·)).length := by
  induction things generalizing doomed done with
  | nil =>
    rcases Except.ok.inj hok with rfl
    simp
  | cons thing rest ih =>
    rw [List.map_cons, List.nodup_cons] at hdistinct
    rcases hdistinct with ⟨hnotin, hrest⟩
    rcases sequence_cons_ok hok with ⟨first, hfirst, hsequence⟩
    obtain ⟨hvalue, hcount⟩ :=
      hedit thing List.mem_cons_self doomed hspares (fun _ => rfl) first hfirst
    rw [hsequence, hvalue] at hok ⊢
    -- What the head has pruned lies below another step than the rest.
    have hother {other : α} (hmem : other ∈ rest) (below : Location) :
        (doomed (step other :: below) ||
          decide (step other :: below ∈ (added thing).map (step thing :: ·))) =
        doomed (step other :: below) := by
      have hne : step thing ≠ step other := by
        intro hsame
        exact hnotin (hsame ▸ List.mem_map_of_mem hmem)
      simp [hne]
    have hsparesRest : Value.SparesChildren fun location =>
        doomed location || decide (location ∈ (added thing).map (step thing :: ·)) := by
      intro other
      have hempty := hadded thing List.mem_cons_self
      simp [hspares other, hempty]
    obtain ⟨hafter, htotal⟩ := ih hrest
      (fun other hmem => hadded other (List.mem_cons_of_mem _ hmem)) hsparesRest
      (fun other hmem before hbefore hsame =>
        hedit other (List.mem_cons_of_mem _ hmem) before hbefore fun below =>
          (hsame below).trans (hother hmem below)) hok
    constructor
    · rw [hafter]
      congr 1
      funext location
      simp only [List.flatMap_cons, List.mem_append, Bool.decide_or, Bool.or_assoc]
    · rw [htotal, Tally.add, hcount, List.flatMap_cons, List.length_append, List.length_map]
      exact Nat.add_assoc _ _ _

/-- A child that has been pruned is put back into the container. -/
theorem Prunes.setChild {inner : Edit} {container child : Value} {step : Step}
    {doomed : Location → Bool} {added : List Location} (hcontainer : container.WellFormed)
    (htarget : container.target = container) (hchild : container.child? step = some child)
    (hspares : Value.SparesChildren doomed) (hadded : [] ∉ added)
    (hinner : inner.Prunes child
      (fun rest => doomed (step :: rest) || decide (rest ∈ added)) added.length) :
    Prunes { inner with value := (container.prune doomed).setChild step inner.value } container
      (fun location => doomed location || decide (location ∈ added.map (step :: ·)))
      added.length := by
  intro tally hok
  rcases hinner tally hok with ⟨hvalue, hcount⟩
  refine ⟨?_, hcount⟩
  have hmore : (fun rest => doomed (step :: rest) || decide (rest ∈ added)) =
      fun rest => doomed (step :: rest) || decide (step :: rest ∈ added.map (step :: ·)) := by
    funext rest
    simp
  have hsparesMore : Value.SparesChildren fun location =>
      doomed location || decide (location ∈ added.map (step :: ·)) := by
    intro other
    simp [hspares other, hadded]
  simp only [hvalue, hmore]
  refine Value.setChild_prune hcontainer.hasDistinctSteps htarget hchild hspares hsparesMore
    fun other hne rest => ?_
  simp [Ne.symm hne]

end Edit

namespace Action

variable {container : Value} {doomed : Location → Bool} {steps : List Step} {location : Location}

/-- Following steps to children that are pruned prunes the container. -/
theorem sequence_editChild_prunes {inner : Location → Value → Edit} {added : Step → List Location}
    (hcontainer : container.WellFormed) (htarget : container.target = container)
    (hsteps : steps.Nodup) (hpresent : ∀ step ∈ steps, (container.child? step).isSome = true)
    (hspares : Value.SparesChildren doomed) (hadded : ∀ step ∈ steps, [] ∉ added step)
    (hinner : ∀ step ∈ steps, ∀ child, container.child? step = some child →
      (inner (location.child step) (child.prune fun rest => doomed (step :: rest))).Prunes child
        (fun rest => doomed (step :: rest) || decide (rest ∈ added step)) (added step).length) :
    (Edit.sequence steps (editChild none location inner) {} (container.prune doomed)).Prunes
      container
      (fun location => doomed location ||
        decide (location ∈ steps.flatMap fun step => (added step).map (step :: ·)))
      (steps.flatMap fun step => (added step).map (step :: ·)).length := by
  intro tally hok
  have hpruned := Edit.sequence_prunes id added (by simpa using hsteps) hadded hspares
    (fun step hstep before hbefore hsame => ?_) hok
  · simpa using hpruned
  · rcases Option.isSome_iff_exists.mp (hpresent step hstep) with ⟨child, hchild⟩
    have hcurrent := Value.child?_prune htarget hbefore step
    rw [hchild, Option.map_some] at hcurrent
    have hbelow : (fun rest => before (step :: rest)) = fun rest => doomed (step :: rest) :=
      funext hsame
    have hedit := hinner step hstep child hchild
    simp only [← congrFun hbelow] at hedit
    have hset := hedit.setChild hcontainer htarget hchild hbefore (hadded step hstep)
    simpa [editChild, hcurrent] using hset

/-- Replacing each child by the pruned child prunes the container. -/
theorem sequence_setChild_prunes (inner : Step × Value → Edit)
    (added : Step × Value → List Location) (hcontainer : container.WellFormed)
    (htarget : container.target = container)
    (hadded : ∀ child ∈ container.children, [] ∉ added child)
    (hinner : ∀ child ∈ container.children,
      (inner child).Prunes child.2 (fun rest => decide (rest ∈ added child)) (added child).length) :
    (Edit.sequence container.children (fun child current =>
      { inner child with value := current.setChild child.1 (inner child).value }) {}
      container).Prunes container
      (fun location => decide
        (location ∈ container.children.flatMap fun child => (added child).map (child.1 :: ·)))
      (container.children.flatMap fun child => (added child).map (child.1 :: ·)).length := by
  intro tally hok
  have hnothing := Value.prune_nothing container
  have hwhole : (Edit.sequence container.children (fun child current =>
      { inner child with value := current.setChild child.1 (inner child).value }) {}
      (container.prune fun _ => false)).result = .ok tally := by
    rwa [hnothing]
  have hpruned := Edit.sequence_prunes Prod.fst added
    (Value.nodup_steps hcontainer.hasDistinctSteps) hadded (fun _ => rfl)
    (fun child hchild before hbefore hsame => ?_) hwhole
  · rw [hnothing] at hpruned
    simpa using hpruned
  · have hfound := (Value.mem_children_iff hcontainer.hasDistinctSteps).mp hchild
    apply Edit.Prunes.setChild hcontainer htarget hfound hbefore (hadded child hchild)
    simpa only [hsame, Bool.false_or] using hinner child hchild

/-- Deleting children that are pruned already prunes the children too. -/
theorem eraseMembers_prunes {strict : Bool} (hcontainer : container.WellFormed)
    (htarget : container.target = container) (hsteps : steps.Nodup)
    (hpresent : ∀ step ∈ steps, (container.child? step).isSome = true)
    (hspares : Value.SparesChildren doomed) :
    (eraseMembers location strict steps (container.prune doomed)).Prunes container
      (fun location => doomed location ||
        decide (location ∈ (steps.filter fun step => !container.isReadOnly step).map ([·])))
      ((steps.filter fun step => !container.isReadOnly step).map
        ([·] : Step → Location)).length := by
  intro tally hok
  have hdistinct := hcontainer.hasDistinctSteps.prune htarget hspares
  have hthere (step : Step) (hstep : step ∈ steps) :
      ((container.prune doomed).child? step).isSome = true := by
    rw [Value.child?_prune htarget hspares, Option.isSome_map]
    exact hpresent step hstep
  rcases eraseMembers_vacates hdistinct hsteps hthere hok with ⟨hvalue, hcount⟩
  simp only [Value.isReadOnly_prune htarget hspares] at hvalue hcount
  refine ⟨?_, by rw [hcount, List.length_map]⟩
  rw [hvalue]
  refine Value.vacate_prune htarget hspares (fun step => ?_) (fun step rest hrest => ?_)
  · simp [hspares step]
  · simp [hrest]

end Action

end NestedData
