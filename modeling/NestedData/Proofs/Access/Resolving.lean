import NestedData.Proofs.Access.PutGet
import NestedData.Proofs.Access.Reselection
import NestedData.Proofs.Path.RoundTrip

/-!
# Places lead back to themselves

This module proves that the path of a place that a traversal visits can be fed back: it
is read from its own text, and it gets and visits the place and nothing else, however
the traversal came there and however it ended.  It also compares the value that a path
gets with the places that it visits.

Main results:

- `Visit.ends_location`: the segments of a location reach what the location leads to.
- `Value.holds_visitsUntil`: a traversal visits only places inside the root.
- `Value.exists_getAt_iff`: a path gets something exactly when it visits something
  without a fault.
- `Value.resolved_paths_lead_back`: all of this for every path.
-/

open NestedData.Outcome

namespace NestedData

/-! ## Following a location -/

namespace Selection

variable {selection reader : Selection} {container : Value} {segment : Segment} {steps : List Step}

/-- The segment of a step selects the child that the step leads to, in any circumstances. -/
theorem select_step {step : Step} (hchild : (container.child? step).isSome = true) :
    selection.select container step.segment = .ok [step] := by
  cases container with
  | map entries =>
    cases step with
    | key name =>
      have hpresent : Entries.contains entries name = true := hchild
      simp [Step.segment, select, selectInMap, selectEntry, hpresent]
    | index position => cases hchild
  | record aggregate =>
    cases step with
    | key name =>
      obtain ⟨value, hvalue⟩ := Option.isSome_iff_exists.mp hchild
      obtain ⟨field, hfield, hexported, _⟩ := Record.get?_eq_some_iff.mp hvalue
      simp [Step.segment, select, selectInRecord, hfield, hexported]
    | index position => cases hchild
  | list sequence =>
    cases step with
    | key name => cases hchild
    | index position =>
      have hinside := Value.isSome_child?_index.mp hchild
      simp [Step.segment, select, selectInList, reaches, hinside]
  | _ => cases hchild

/-- Whether selecting is a fault, and what is selected, does not depend on what is being
done, nor on the place. -/
theorem select_congr (hselect : selection.select container segment = .ok steps)
    (hcreate : selection.create = false) (hreads : reader.create = false)
    (hstrict : reader.strict = selection.strict)
    (hsearching : reader.searching = selection.searching) :
    reader.select container segment = .ok steps := by
  have hsteps := steps_of_select hcreate hselect
  have hok : ∃ picked, reader.select container segment = .ok picked := by
    cases container with
    | map entries =>
      refine exists_select_map hstrict hselect fun step hstep => ?_
      exact (Segment.mem_steps_map_iff.mp (hsteps ▸ hstep)).1
    | record aggregate =>
      exact exists_select_record hstrict (fun hfound => hsearching.trans hfound) hselect rfl
    | list sequence =>
      refine exists_select_list hstrict hselect fun step hstep => ?_
      exact (Segment.mem_steps_list_iff.mp (hsteps ▸ hstep)).1
    | _ => exact ⟨[], miss_again hstrict hselect _ _⟩
  obtain ⟨picked, hpicked⟩ := hok
  rw [hpicked, ← steps_of_select hreads hpicked, hsteps]

end Selection

theorem Step.steps_segment {container : Value} {step : Step}
    (hchild : (container.child? step).isSome = true) : step.segment.steps container = [step] := by
  rw [Segment.steps, Selection.select_step hchild]

theorem Step.segment_ne_root (step : Step) : step.segment ≠ .root := by
  cases step <;> exact Segment.noConfusion

/-- The segments of a location meet no fault on the way to what the location leads to, and
reach it alone. -/
theorem Visit.ends_location {value found : Value} {location : Location}
    (hfound : value.valueAt? location = some found) :
    Readable true (location.map Step.segment) value ∧
      ends (location.map Step.segment) value = [(location, found)] := by
  induction location generalizing value with
  | nil =>
    cases hfound
    exact ⟨trivial, rfl⟩
  | cons step rest ih =>
    obtain ⟨child, hchild, hrest⟩ := Option.bind_eq_some_iff.mp hfound
    have hpresent : (value.target.child? step).isSome = true := by
      rw [hchild]
      rfl
    have hsteps := Step.steps_segment hpresent
    have hone : step.segment.isMultiValued = false := by
      cases step <;> rfl
    obtain ⟨hreadable, hends⟩ := ih hrest
    rw [List.map_cons, readable_segment step.segment_ne_root, ends,
      reach_segment step.segment_ne_root, hsteps, List.flatMap_singleton, hchild]
    refine ⟨⟨fun _ _ => Selection.select_step hpresent, ?_⟩, ?_⟩
    · intro other hother next hnext
      rw [List.mem_singleton.mp hother, hchild] at hnext
      rw [← Option.some.inj hnext, hone]
      exact hreadable
    · simp only
      rw [← ends, hends]
      rfl

namespace Value

variable {root found : Value} {location : Location}

/-- The path of a place selects one child at a time. -/
theorem isMultiValued_toPath (location : Location) : location.toPath.isMultiValued = false := by
  have hsegments : ∀ segment ∈ location.map Step.segment, segment.isMultiValued = false := by
    intro segment hmem
    obtain ⟨step, _, rfl⟩ := List.mem_map.mp hmem
    cases step <;> rfl
  simp only [Location.toPath, Path.isMultiValued, Path.isRecursive, Path.groups, List.any_cons,
    List.any_nil, Bool.or_false, List.isEmpty_nil, Bool.not_true, Bool.false_or]
  rw [show Segment.root.isMultiValued = false from rfl, Bool.false_or, List.any_eq_false]
  exact fun segment hmem => by simp [hsegments segment hmem]

/-- The path of a place gets what is there. -/
theorem getAt_toPath (hfound : root.valueAt? location = some found) :
    root.getAt location.toPath = .ok found := by
  obtain ⟨hreadable, hends⟩ := Visit.ends_location hfound
  have hsearches : location.toPath.searches = [] := rfl
  have hget := follow_of_readable (fun _ value found => .yield (found.push value))
    (f := fun found place => found.push place.2) hsearches (.inr rfl) (fun _ _ _ => rfl) hreadable
    .get #[]
  rw [getAt, hget, hends]
  simp [isMultiValued_toPath]

/-- The path of a place visits the place and nothing else. -/
theorem visits_toPath (hfound : root.valueAt? location = some found) :
    root.visits location.toPath = .running [(location, found)] := by
  obtain ⟨hreadable, hends⟩ := Visit.ends_location hfound
  have hsearches : location.toPath.searches = [] := rfl
  have hvisits := follow_of_readable
    (fun location value seen => .yield (seen ++ [(location, value)]))
    (f := fun seen place => seen ++ [place]) hsearches (.inr rfl) (fun _ _ _ => rfl) hreadable
    .forEach []
  rw [visits, forEach, hvisits, hends]
  rfl

/-! ## Paths of places can be written -/

/-- Every list inside the value can be indexed with signed words. -/
def Addressable (root : Value) : Prop :=
  ∀ location sequence, root.valueAt? location = some (.list sequence) → sequence.size ≤ 2 ^ 63 - 1

theorem addressable_of_places (hroot : root.WellFormed)
    (hlists : ∀ place ∈ root.places [], ∀ sequence, place.2 = .list sequence →
      sequence.size ≤ 2 ^ 63 - 1) : root.Addressable := fun location sequence hfound =>
  hlists (location, .list sequence) ((mem_places_iff hroot).mpr hfound) sequence rfl

/-- The path of a place inside an addressable value is one that texts spell. -/
theorem Addressable.isCanonical_toPath (hroot : root.Addressable)
    (hfound : root.valueAt? location = some found) : location.toPath.IsCanonical := by
  have hsegments : .root ∉ location.map Step.segment := by
    intro hmem
    obtain ⟨step, _, hsame⟩ := List.mem_map.mp hmem
    exact step.segment_ne_root hsame
  refine ⟨hsegments, by simp [Location.toPath], by simp [Location.toPath], fun segment hmem => ?_⟩
  have hsegment : segment = .root ∨ ∃ step ∈ location, step.segment = segment := by
    simpa [Location.toPath, Path.segments, Path.groups] using hmem
  rcases hsegment with rfl | ⟨step, hstep, rfl⟩
  · trivial
  · cases step with
    | key name => trivial
    | index position =>
      obtain ⟨before, after, rfl⟩ := List.append_of_mem hstep
      rw [valueAt?_append] at hfound
      obtain ⟨container, hcontainer, hrest⟩ := Option.bind_eq_some_iff.mp hfound
      obtain ⟨child, hchild, _⟩ := Option.bind_eq_some_iff.mp hrest
      rw [target_of_valueAt? hcontainer] at hchild
      cases container with
      | list sequence =>
        have hinside : position < sequence.size := isSome_child?_index.mp (by rw [hchild]; rfl)
        have hfits := hroot before sequence hcontainer
        change position ≤ 2 ^ 63 - 1
        omega
      | _ => cases hchild

/-! ## Traversals stay inside the root -/

/-- Every place of the trace is inside the root and holds what the trace has there. -/
def Holds (root : Value) (trace : Visit.Trace) : Prop :=
  ∀ place ∈ trace, root.valueAt? place.1 = some place.2

end Value

/-- What has been collected keeps a property that every visit keeps, however the traversal
ends. -/
theorem Progress.collected_through {σ α : Type} {motive : σ → Prop} {things : List α}
    {visit : α → σ → Progress σ} (hvisit : ∀ thing ∈ things, ∀ collected, motive collected →
      motive (visit thing collected).collected) {collected : σ} (hcollected : motive collected) :
    motive (Progress.through things visit collected).collected := by
  induction things generalizing collected with
  | nil => exact hcollected
  | cons thing rest ih =>
    have hfirst := hvisit thing List.mem_cons_self collected hcollected
    rw [Progress.through_cons]
    generalize visit thing collected = progress at hfirst ⊢
    cases progress with
    | running => exact ih (fun other hother => hvisit other (List.mem_cons_of_mem _ hother)) hfirst
    | _ => exact hfirst

namespace Visit

/-- The visitor that collects the places it is handed until `halts` holds of them. -/
def recordUntil (halts : Trace → Bool) : Visitor Trace := fun location value seen =>
  if halts (seen ++ [(location, value)]) then .done (seen ++ [(location, value)])
  else .yield (seen ++ [(location, value)])

/-- What is done at a place inside the root collects only places inside the root. -/
def Locates (root : Value) (arrive : Arrival Trace) : Prop :=
  ∀ location value, root.valueAt? location = some value → ∀ seen, root.Holds seen →
    root.Holds (arrive location value seen).collected

variable {root : Value} {arrive : Arrival Trace}

/-- Following segments from a place inside the root collects only places inside it. -/
theorem holds_descend (harrive : Locates root arrive) (operation : Operation)
    (searching strict : Bool) (segments : List Segment) {location : Location} {value : Value}
    (hvalue : root.valueAt? location = some value.target) {seen : Trace}
    (hseen : root.Holds seen) : root.Holds
      (descend operation arrive searching strict segments location value seen).collected := by
  induction segments generalizing searching strict location value seen with
  | nil => exact harrive location value.target hvalue seen hseen
  | cons segment rest ih =>
    by_cases hsegment : segment = .root
    · subst hsegment
      exact ih false strict hvalue hseen
    · rw [descend_segment hsegment]
      split
      · exact hseen
      · refine Progress.collected_through (fun step _ collected hcollected => ?_) hseen
        cases hchild : value.target.child? step with
        | none => exact hcollected
        | some child =>
          refine ih _ _ ?_ hcollected
          rw [Location.child, Value.valueAt?_append, hvalue, Option.bind_some, Value.valueAt?,
            Value.target_target, hchild]
          rfl

/-- Searching from a place inside the root collects only places inside it. -/
theorem locates_search (hroot : root.WellFormed) (halts : Trace → Bool) (operation : Operation)
    (searches : List (List Segment)) :
    Locates root (search operation (recordUntil halts) searches) := by
  induction searches with
  | nil =>
    intro location value hvalue seen hseen
    have hmore : root.Holds (seen ++ [(location, value)]) := by
      intro place hplace
      rcases List.mem_append.mp hplace with hplace | hplace
      · exact hseen place hplace
      · rw [List.mem_singleton.mp hplace]
        exact hvalue
    rw [search, recordUntil]
    cases halts (seen ++ [(location, value)]) <;> exact hmore
  | cons group rest ih =>
    intro location value hvalue seen hseen
    refine Progress.collected_through (fun place hplace collected hcollected => ?_) hseen
    rw [Value.places_eq_map] at hplace
    obtain ⟨⟨run, start⟩, hmem, rfl⟩ := List.mem_map.mp hplace
    have hstart := (Value.mem_places_iff (hroot.valueAt hvalue)).mp hmem
    refine holds_descend ih _ _ _ _ ?_ hcollected
    rw [Location.below, Value.valueAt?_append, hvalue, Option.bind_some,
      Value.target_of_valueAt? hstart, hstart]

end Visit

namespace Value

/-- Visits the places that a path selects until `halts` holds of those visited, and collects
them, in order. -/
def visitsUntil (halts : Visit.Trace → Bool) (root : Value) (path : Path) :
    Progress Visit.Trace :=
  root.forEach path (Visit.recordUntil halts) []

/-- However a visitor ends the traversal, the places it is handed are inside the root and
hold what it is handed with them. -/
theorem holds_visitsUntil {root : Value} (hroot : root.WellFormed) (halts : Visit.Trace → Bool)
    (path : Path) : root.Holds (root.visitsUntil halts path).collected := by
  have hlocates := Visit.locates_search hroot halts .forEach path.searches
  exact Visit.holds_descend hlocates .forEach false true path.first rfl (by simp [Holds])

end Value

/-! ## Getting and visiting -/

/-- Two traversals that no visitor ends have come equally far: a fault has ended both, or
both are running and what they have collected is related. -/
inductive Progress.Together {σ τ : Type} (related : σ → τ → Prop) : Progress σ → Progress τ → Prop
  /-- Both are still running. -/
  | running {collected : σ} {other : τ} (hcollected : related collected other) :
      Together related (.running collected) (.running other)
  /-- A fault has ended both. -/
  | failed {collected : σ} {other : τ} {error fault : AccessError} :
      Together related (.failed collected error) (.failed other fault)

namespace Visit

variable {σ τ : Type} {related : σ → τ → Prop}

/-- Going through the same things comes equally far if each is visited together. -/
theorem through_together {α : Type} {things : List α} {visit : α → σ → Progress σ}
    {revisit : α → τ → Progress τ}
    (hvisit : ∀ thing ∈ things, ∀ collected other, related collected other →
      Progress.Together related (visit thing collected) (revisit thing other))
    {collected : σ} {other : τ} (hcollected : related collected other) :
    Progress.Together related (Progress.through things visit collected)
      (Progress.through things revisit other) := by
  induction things generalizing collected other with
  | nil => exact .running hcollected
  | cons thing rest ih =>
    have hfirst := hvisit thing List.mem_cons_self collected other hcollected
    rw [Progress.through_cons, Progress.through_cons]
    generalize visit thing collected = progress at hfirst ⊢
    generalize revisit thing other = outcome at hfirst ⊢
    cases hfirst with
    | running hmore => exact ih (fun next hnext => hvisit next (List.mem_cons_of_mem _ hnext)) hmore
    | failed => exact .failed

/-- What is done at a place by one traversal and by another comes equally far. -/
def Arrival.Together (related : σ → τ → Prop) (arrive : Arrival σ) (other : Arrival τ) : Prop :=
  ∀ location value collected found, related collected found →
    Progress.Together related (arrive location value collected) (other location value found)

/-- Following the same segments comes equally far, whatever is being done. -/
theorem descend_together {arrive : Arrival σ} {other : Arrival τ}
    (harrive : Arrival.Together related arrive other) (operation others : Operation)
    (searching strict : Bool) (segments : List Segment) :
    Arrival.Together related (descend operation arrive searching strict segments)
      (descend others other searching strict segments) := by
  induction segments generalizing searching strict with
  | nil => exact fun location value => harrive location value.target
  | cons segment rest ih =>
    intro location value collected found hcollected
    by_cases hsegment : segment = .root
    · subst hsegment
      exact ih false strict location value collected found hcollected
    · rw [descend_segment hsegment, descend_segment hsegment]
      cases hselect : Selection.select
          { operation, location, strict, create := false, searching } value.target segment with
      | ok steps =>
        have hother : Selection.select
            { operation := others, location, strict, create := false, searching }
            value.target segment = .ok steps := Selection.select_congr hselect rfl rfl rfl rfl
        rw [hother]
        refine through_together (fun step _ collected found hcollected => ?_) hcollected
        cases value.target.child? step with
        | none => exact .running hcollected
        | some child => exact ih _ _ _ child collected found hcollected
      | error error =>
        cases hother : Selection.select
            { operation := others, location, strict, create := false, searching }
            value.target segment with
        | error fault => exact .failed
        | ok steps =>
          have hsame : Selection.select { operation, location, strict, create := false, searching }
              value.target segment = .ok steps := Selection.select_congr hother rfl rfl rfl rfl
          cases hselect.symm.trans hsame

/-- Searching for the same groups comes equally far if the places found are visited
together. -/
theorem search_together {operation others : Operation} {visit : Visitor σ} {other : Visitor τ}
    (hvisit : Arrival.Together related (search operation visit []) (search others other []))
    (searches : List (List Segment)) :
    Arrival.Together related (search operation visit searches) (search others other searches) := by
  induction searches with
  | nil => exact hvisit
  | cons group rest ih =>
    intro location value collected found hcollected
    refine through_together (fun place _ collected found hcollected => ?_) hcollected
    exact descend_together ih operation others true false group place.1 place.2 collected found
      hcollected

/-- Following segments that select one child at a time, where misses are faults, meets a
fault or leads to one place. -/
theorem descend_single {f : σ → Location × Value → σ} {arrive : Arrival σ}
    (harrive : ∀ location value collected, arrive location value collected =
      .running (f collected (location, value))) {segments : List Segment}
    (hsingle : ∀ segment ∈ segments, segment.isMultiValued = false) (operation : Operation)
    (location : Location) (value : Value) (collected : σ) :
    (∃ error, descend operation arrive false true segments location value collected =
        .failed collected error) ∨
      ∃ place, descend operation arrive false true segments location value collected =
        .running (f collected place) := by
  induction segments generalizing location value with
  | nil => exact .inr ⟨_, harrive location value.target collected⟩
  | cons segment rest ih =>
    have hrest : ∀ other ∈ rest, other.isMultiValued = false :=
      fun other hother => hsingle other (List.mem_cons_of_mem _ hother)
    by_cases hsegment : segment = .root
    · subst hsegment
      exact ih hrest location value
    · have hone := hsingle segment List.mem_cons_self
      rw [descend_segment hsegment]
      cases hselect : Selection.select
          { operation, location, strict := true, create := false, searching := false }
          value.target segment with
      | error error => exact .inl ⟨error, rfl⟩
      | ok steps =>
        obtain ⟨step, rfl, hpresent⟩ := exists_step_of_single rfl rfl hsegment hone hselect
        obtain ⟨child, hchild⟩ := Option.isSome_iff_exists.mp (hpresent rfl)
        simp only [Progress.through_cons, hchild, hone, Bool.not_false, Bool.and_true]
        rcases ih hrest (location.child step) child with ⟨error, hfailed⟩ | ⟨place, hrunning⟩
        · exact .inl ⟨error, by rw [hfailed]; rfl⟩
        · exact .inr ⟨place, by rw [hrunning]; rfl⟩

end Visit

namespace Value

variable {root : Value} {path : Path}

/-- What a path gets is collected as what it visits is. -/
theorem follow_get_together (root : Value) (path : Path) :
    Progress.Together (fun (found : Array Value) (seen : Visit.Trace) =>
        found = (seen.map Prod.snd).toArray)
      (Visit.follow .get path (fun _ value found => .yield (found.push value)) root #[])
      (root.visits path) := by
  have hvisit : Visit.Arrival.Together (fun (found : Array Value) (seen : Visit.Trace) =>
      found = (seen.map Prod.snd).toArray)
      (Visit.search .get (fun _ value found => .yield (found.push value)) [])
      (Visit.search .forEach (fun location value seen =>
        .yield (seen ++ [(location, value)])) []) :=
    fun location value found seen hfound => .running (by simp [hfound])
  exact Visit.descend_together (Visit.search_together hvisit path.searches) .get .forEach false true
    path.first [] root #[] [] rfl

/-- A path that selects one child at a time visits one place if it meets no fault. -/
theorem exists_visit_of_single (hpath : path.isMultiValued = false)
    (hok : (root.visits path).outcome = .ok ()) : ∃ place, root.visits path = .running [place] := by
  obtain ⟨hsearches, hsingle⟩ := Path.searches_eq_nil hpath
  have harrive (location : Location) (value : Value) (seen : Visit.Trace) :
      Visit.search .forEach (fun location value seen => .yield (seen ++ [(location, value)])) []
        location value seen = .running (seen ++ [(location, value)]) := rfl
  have hvisits := Visit.descend_single (f := fun seen place => seen ++ [place]) harrive hsingle
    .forEach [] root []
  rw [visits, forEach, Visit.follow, hsearches] at hok ⊢
  rcases hvisits with ⟨error, hfailed⟩ | ⟨place, hrunning⟩
  · rw [hfailed] at hok
    cases hok
  · exact ⟨place, hrunning⟩

/-- A path gets something exactly when it visits something without a fault. -/
theorem exists_getAt_iff :
    (∃ value, root.getAt path = .ok value) ↔
      (root.visits path).outcome = .ok () ∧ (root.visits path).collected ≠ [] := by
  have htogether := follow_get_together root path
  unfold getAt
  generalize Visit.follow _ _ _ root _ = progress at htogether ⊢
  generalize root.visits path = visited at htogether ⊢
  cases htogether with
  | failed => simp [Progress.outcome]
  | @running found seen hfound =>
    subst hfound
    cases seen with
    | nil => simp [Progress.collected]
    | cons place rest =>
      cases hmany : path.isMultiValued <;> simp [Progress.outcome, Progress.collected]

/-- What a path gets is the list of all values that it visits, or the only one if it selects
one child at a time. -/
theorem getAt_eq_visited {value : Value} (hget : root.getAt path = .ok value) :
    if path.isMultiValued then value = .ofItems ((root.visits path).collected.map Prod.snd).toArray
    else ∃ location, root.visits path = .running [(location, value)] := by
  have hvisited := (exists_getAt_iff.mp ⟨value, hget⟩).1
  have htogether := follow_get_together root path
  have hsingle (hpath : path.isMultiValued = false) := exists_visit_of_single hpath hvisited
  unfold getAt at hget
  generalize Visit.follow _ _ _ root _ = progress at htogether hget
  generalize root.visits path = visited at htogether hsingle ⊢
  cases htogether with
  | failed => cases hget
  | @running found seen hfound =>
    subst hfound
    simp only at hget
    split at hget
    · cases hget
    · rename_i first hfirst
      cases hmany : path.isMultiValued with
      | true =>
        rw [hmany, if_pos rfl] at hget
        exact (Except.ok.inj hget).symm
      | false =>
        rw [hmany, if_neg Bool.false_ne_true] at hget
        obtain ⟨place, hplace⟩ := hsingle hmany
        cases hplace
        have hvalue : place.2 = first := by simpa using hfirst
        exact ⟨place.1, by rw [← Except.ok.inj hget, ← hvalue]⟩

/-- However a visitor ends the traversal, and whether or not a fault does, the path of every
place that it is handed can be fed back: it is read from its own text, gets what the
visitor is handed with it, and visits the place and nothing else.  A path gets something
exactly when it visits something without a fault: the list of all values visited in their
order if it may match several places, and otherwise the value at the only place visited. -/
theorem resolved_paths_lead_back (hroot : root.WellFormed) (haddressable : root.Addressable)
    (path : Path) :
    (∀ halts, ∀ place ∈ (root.visitsUntil halts path).collected,
      ∃ again, Path.parse place.1.toPath.render = .ok again ∧ root.getAt again = .ok place.2 ∧
        root.visits again = .running [place]) ∧
    ((∃ value, root.getAt path = .ok value) ↔
      (root.visits path).outcome = .ok () ∧ (root.visits path).collected ≠ []) ∧
    ∀ value, root.getAt path = .ok value →
      if path.isMultiValued then
        value = .ofItems ((root.visits path).collected.map Prod.snd).toArray
      else ∃ location, root.visits path = .running [(location, value)] := by
  refine ⟨fun halts place hplace => ?_, exists_getAt_iff, fun value => getAt_eq_visited⟩
  have hfound := holds_visitsUntil hroot halts path place hplace
  exact ⟨place.1.toPath, Path.parse_render (haddressable.isCanonical_toPath hfound),
    getAt_toPath hfound, visits_toPath hfound⟩

/-- A search for all children finds one in a list under a numeric key, behind a reference, and
its path leads back to it; hidden fields are passed over. -/
theorem resolved_paths_lead_back_numeric :
    let root : Value := .map [("7", .ref (.ofItems #[.text "x"])), ("a.b", .record {
      name := "Pair", fields := [{ name := "seen", value := .int 1 },
        { name := "hidden", exported := false, value := .int 2 }] })]
    let path : Path := { first := [], searches := [[.wildcard]] }
    root.WellFormed ∧ root.Addressable ∧
      ([.key "7", .index 0], .text "x") ∈ (root.visitsUntil (fun _ => false) path).collected ∧
      (∃ again, Path.parse "$['7'][0]" = .ok again ∧ root.getAt again = .ok (.text "x") ∧
        root.visits again = .running [([.key "7", .index 0], .text "x")]) ∧
      ∃ value, root.getAt path = .ok value := by
  intro root path
  have hroot : root.WellFormed := by
    simp [root, ofItems, Sequence.growable, Entries.keys, Record.names]
  have hplaces : root.places [] =
      [([], root), ([.key "7"], .ofItems #[.text "x"]), ([.key "7", .index 0], .text "x"),
        ([.key "a.b"], .record { name := "Pair", fields := [{ name := "seen", value := .int 1 },
          { name := "hidden", exported := false, value := .int 2 }] }),
        ([.key "a.b", .key "seen"], .int 1)] := by
    cbv
  have haddressable : root.Addressable := by
    refine addressable_of_places hroot fun place hplace sequence hsequence => ?_
    rw [hplaces] at hplace
    simp only [List.mem_cons, List.not_mem_nil, or_false] at hplace
    rcases hplace with rfl | rfl | rfl | rfl | rfl <;> cases hsequence
    decide
  have hvisited : ([.key "7", .index 0], .text "x") ∈
      (root.visitsUntil (fun _ => false) path).collected := by
    have hcollected : (root.visitsUntil (fun _ => false) path).collected[2]? =
        some ([.key "7", .index 0], .text "x") := by
      cbv
    exact List.mem_of_getElem? hcollected
  have hrender : (Location.toPath [.key "7", .index 0]).render = "$['7'][0]" := by
    decide +kernel
  obtain ⟨hback, hget, _⟩ := resolved_paths_lead_back hroot haddressable path
  refine ⟨hroot, haddressable, hvisited, ?_, hget.mpr ⟨by cbv, ?_⟩⟩
  · have hagain := hback _ _ hvisited
    simp only [hrender] at hagain
    exact hagain
  · have hcollected : (root.visits path).collected[0]? =
        some ([.key "7"], .ofItems #[.text "x"]) := by
      cbv
    rintro hnone
    rw [hnone] at hcollected
    cases hcollected

end Value

end NestedData
