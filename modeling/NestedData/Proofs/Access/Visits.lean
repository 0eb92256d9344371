import Mathlib.Data.List.Permutation
import NestedData.Access.Visit
import NestedData.Proofs.Access.Matching

/-!
# What a traversal visits

This module says which places a traversal hands to a visitor that never ends it, and
in which order.  The rows of places that the segments of a group and the searches give
are defined without a visitor, the traversal is shown to be a fold over them, and their
members are shown to be the places that the path matches.

Main results:

- `Visit.descend_traces`, `Visit.search_traces`: a traversal that meets no fault is a
  fold over the places reached.
- `Visit.mem_reach_iff`, `Visit.mem_found_iff`: these are the places led to.
- `Value.visits_exactly_matches`: a traversal visits the places that the path matches,
  each once unless it has several searches or a union that names a child twice.
-/

namespace NestedData

namespace Visit

variable {σ : Type}

/-! ## The places reached -/

/-- Places inside a value and the values there. -/
abbrev Trace := List (Location × Value)

/-- The places that the segments of a group lead to, in the order of the traversal;
`arrive` gives the places visited from where the segments lead. -/
def reach (arrive : Value → Trace) : List Segment → Value → Trace
  | [], value => arrive value.target
  | .root :: rest, value => reach arrive rest value
  | segment :: rest, value =>
    (segment.steps value.target).flatMap fun step =>
      (match value.target.child? step with
        | some child => reach arrive rest child
        | none => []).map (Location.below [step])

/-- The places that the searches find, in the order of the traversal. -/
def found : List (List Segment) → Value → Trace
  | [], value => [([], value)]
  | group :: rest, value =>
    (value.places []).flatMap fun place =>
      (reach (found rest) group place.2).map (Location.below place.1)

/-- A segment other than the root mark goes on from each child that it picks. -/
theorem reach_segment {segment : Segment} (hsegment : segment ≠ .root) (arrive : Value → Trace)
    (rest : List Segment) (value : Value) :
    reach arrive (segment :: rest) value =
      (segment.steps value.target).flatMap fun step =>
        (match value.target.child? step with
          | some child => reach arrive rest child
          | none => []).map (Location.below [step]) := by
  cases segment with
  | root => exact absurd rfl hsegment
  | _ => rfl

/-- What segments reach does not depend on references to the start. -/
@[simp]
theorem reach_target (arrive : Value → Trace) (segments : List Segment) (value : Value) :
    reach arrive segments value.target = reach arrive segments value := by
  induction segments with
  | nil => rw [reach, reach, Value.target_target]
  | cons segment rest ih =>
    by_cases hsegment : segment = .root
    · subst hsegment
      exact ih
    · rw [reach_segment hsegment, reach_segment hsegment, Value.target_target]

theorem found_target (group : List Segment) (rest : List (List Segment)) (value : Value) :
    found (group :: rest) value.target = found (group :: rest) value := by
  rw [found, found, Value.places_eq [] value.target, Value.places_eq [] value, Value.target_target]

/-- A search finds what its group reaches from the value, and what the search finds below
its children. -/
theorem found_cons (group : List Segment) (rest : List (List Segment)) (value : Value) :
    found (group :: rest) value =
      reach (found rest) group value ++ value.target.children.flatMap fun child =>
        (found (group :: rest) child.2).map (Location.below [child.1]) := by
  rw [found, Value.places_nil, List.flatMap_cons, Location.below_nil, List.map_id, reach_target]
  congr 1
  rw [List.flatMap_assoc]
  refine List.flatMap_congr fun child _ => ?_
  rw [List.flatMap_map, found, List.map_flatMap]
  refine List.flatMap_congr fun place _ => ?_
  rw [List.map_map, Location.below_below]
  rfl

theorem reach_of_first {arrive : Value → Trace} {first segments : List Segment}
    (hfirst : first = segments ∨ first = .root :: segments) (value : Value) :
    reach arrive first value = reach arrive segments value := by
  rcases hfirst with rfl | rfl <;> rfl

/-! ## A traversal is a fold -/

theorem descend_of_first {arrive : Arrival σ} {first segments : List Segment}
    (hfirst : first = segments ∨ first = .root :: segments) (operation : Operation)
    (strict : Bool) (location : Location) (value : Value) (collected : σ) :
    descend operation arrive false strict first location value collected =
      descend operation arrive false strict segments location value collected := by
  rcases hfirst with rfl | rfl <;> rfl

/-- A segment other than the root mark is followed to each child selected. -/
theorem descend_segment {segment : Segment} (hsegment : segment ≠ .root) (operation : Operation)
    (arrive : Arrival σ) (searching strict : Bool) (rest : List Segment) (location : Location)
    (value : Value) (collected : σ) :
    descend operation arrive searching strict (segment :: rest) location value collected =
      match Selection.select { operation, location, strict, create := false, searching }
        value.target segment with
      | .error error => .failed collected error
      | .ok steps =>
        Progress.through steps (fun step collected =>
          match value.target.child? step with
          | some child =>
            descend operation arrive false (strict && !segment.isMultiValued) rest
              (location.child step) child collected
          | none => .running collected) collected := by
  cases segment with
  | root => exact absurd rfl hsegment
  | _ => rfl

/-- Unless it meets a fault, what is done at a place collects the places of a trace
one after the other. -/
def Traces (f : σ → Location × Value → σ) (arrive : Arrival σ) (trace : Value → Trace) : Prop :=
  ∀ location value collected,
    (∃ seen error, arrive location value collected = .failed seen error) ∨
      arrive location value collected =
        .running (((trace value).map location.below).foldl f collected)

/-- Going through things that are each a fold is a fold over the whole. -/
theorem through_traces {α : Type} {f : σ → Location × Value → σ} {things : List α}
    {visit : α → σ → Progress σ} {trace : α → Trace}
    (hvisit : ∀ thing collected, (∃ seen error, visit thing collected = .failed seen error) ∨
      visit thing collected = .running ((trace thing).foldl f collected)) (collected : σ) :
    (∃ seen error, Progress.through things visit collected = .failed seen error) ∨
      Progress.through things visit collected =
        .running ((things.flatMap trace).foldl f collected) := by
  induction things generalizing collected with
  | nil => exact .inr rfl
  | cons thing rest ih =>
    rw [Progress.through_cons]
    rcases hvisit thing collected with ⟨seen, error, hfailed⟩ | hrunning
    · rw [hfailed]
      exact .inl ⟨seen, error, rfl⟩
    · rw [hrunning, Progress.andThen_running, List.flatMap_cons, List.foldl_append]
      exact ih _

/-- Following the segments of a group is a fold over the places they lead to. -/
theorem descend_traces {f : σ → Location × Value → σ} {arrive : Arrival σ} {trace : Value → Trace}
    (harrive : Traces f arrive trace) (operation : Operation) (searching strict : Bool)
    (segments : List Segment) :
    Traces f (descend operation arrive searching strict segments) (reach trace segments) := by
  induction segments generalizing searching strict with
  | nil =>
    intro location value collected
    exact harrive location value.target collected
  | cons segment rest ih =>
    intro location value collected
    by_cases hsegment : segment = .root
    · subst hsegment
      exact ih false strict location value collected
    · rw [descend_segment hsegment, reach_segment hsegment]
      cases hselect : Selection.select
          { operation, location, strict, create := false, searching } value.target segment with
      | error error => exact .inl ⟨collected, error, rfl⟩
      | ok steps =>
        rw [Selection.steps_of_select rfl hselect, List.map_flatMap]
        refine through_traces (fun step collected => ?_) collected
        rw [List.map_map, Location.below_below]
        cases value.target.child? step with
        | none => exact .inr rfl
        | some child =>
          exact ih false (strict && !segment.isMultiValued) (location.child step) child collected

/-- Searching is a fold over the places found. -/
theorem search_traces (f : σ → Location × Value → σ) (visit : Visitor σ)
    (hvisit : ∀ location value collected,
      visit location value collected = .yield (f collected (location, value)))
    (operation : Operation) (searches : List (List Segment)) :
    Traces f (search operation visit searches) (found searches) := by
  induction searches with
  | nil =>
    intro location value collected
    right
    simp [search, hvisit, found, Location.below]
  | cons group rest ih =>
    intro location value collected
    have hfound : (found (group :: rest) value).map location.below =
        (value.places location).flatMap fun place =>
          (reach (found rest) group place.2).map place.1.below := by
      rw [found, List.map_flatMap, Value.places_eq_map location, List.flatMap_map]
      refine List.flatMap_congr fun place _ => ?_
      rw [List.map_map, Location.below_below]
      rfl
    rw [search, hfound]
    refine through_traces (fun place => ?_) collected
    exact descend_traces ih operation true false group place.1 place.2

/-! ## The places reached are those led to -/

/-- The places that segments reach are those they lead to, followed by what is visited
from there. -/
theorem mem_reach_iff {arrive : Value → Trace} {segments : List Segment} {value final : Value}
    (hvalue : value.WellFormed) {location : Location} :
    (location, final) ∈ reach arrive segments value ↔
      ∃ own middle later, Leads segments value own middle ∧ (later, final) ∈ arrive middle ∧
        location = own ++ later := by
  induction segments generalizing value location with
  | nil =>
    constructor
    · intro hmem
      exact ⟨[], value.target, location, .done value, hmem, rfl⟩
    · rintro ⟨own, middle, later, ⟨⟩, hmem, rfl⟩
      exact hmem
  | cons segment rest ih =>
    by_cases hsegment : segment = .root
    · subst hsegment
      rw [reach, ih hvalue]
      constructor
      · rintro ⟨own, middle, later, hleads, hmem, hsame⟩
        exact ⟨own, middle, later, .root hleads, hmem, hsame⟩
      · rintro ⟨own, middle, later, hleads, hmem, hsame⟩
        cases hleads with
        | root hrest => exact ⟨own, middle, later, hrest, hmem, hsame⟩
        | step hselects _ _ => exact absurd hselects.2 id
    · rw [reach_segment hsegment, List.mem_flatMap]
      constructor
      · rintro ⟨step, hstep, hmem⟩
        have hselects := (Segment.mem_steps_iff hvalue.target).mp hstep
        rcases Option.isSome_iff_exists.mp hselects.1 with ⟨child, hchild⟩
        rw [hchild] at hmem
        rcases List.mem_map.mp hmem with ⟨⟨inner, other⟩, hinner, hsame⟩
        cases hsame
        obtain ⟨own, middle, later, hleads, harrive, rfl⟩ :=
          (ih (hvalue.target.child hchild)).mp hinner
        exact ⟨step :: own, middle, later, .step hselects hchild hleads, harrive, rfl⟩
      · rintro ⟨own, middle, later, hleads, harrive, rfl⟩
        cases hleads with
        | root => exact absurd rfl hsegment
        | @step _ _ _ child _ step own hselects hchild hrest =>
          refine ⟨step, (Segment.mem_steps_iff hvalue.target).mpr hselects, ?_⟩
          rw [hchild]
          refine List.mem_map.mpr ⟨(own ++ later, final), ?_, rfl⟩
          exact (ih (hvalue.target.child hchild)).mpr ⟨own, middle, later, hrest, harrive, rfl⟩

/-- The places that searches find are those they lead to. -/
theorem mem_found_iff {searches : List (List Segment)} {value final : Value}
    (hvalue : value.WellFormed) (htarget : value.target = value) {location : Location} :
    (location, final) ∈ found searches value ↔ SearchLeads searches value location final := by
  induction searches generalizing value location with
  | nil =>
    rw [found, List.mem_singleton]
    constructor
    · intro hsame
      cases hsame
      have hdone := SearchLeads.done final
      rwa [htarget] at hdone
    · rintro ⟨⟩
      rw [htarget]
  | cons group rest ih =>
    rw [found, List.mem_flatMap]
    constructor
    · rintro ⟨⟨run, start⟩, hplace, hmem⟩
      have hrun := (Value.mem_places_iff hvalue).mp hplace
      rcases List.mem_map.mp hmem with ⟨⟨inner, other⟩, hinner, hsame⟩
      cases hsame
      obtain ⟨own, middle, later, hleads, harrive, rfl⟩ :=
        (mem_reach_iff (hvalue.valueAt hrun)).mp hinner
      have hmiddle := hleads.valueAt
      refine .search hrun hleads ?_
      have hinner := (hvalue.valueAt hrun).valueAt hmiddle
      exact (ih hinner (Value.target_of_valueAt? hmiddle)).mp harrive
    · intro hleads
      cases hleads with
      | @search _ _ value start middle _ run own later hrun hown hlater =>
        have hmiddle := hown.valueAt
        refine ⟨(run, start), (Value.mem_places_iff hvalue).mpr hrun, ?_⟩
        refine List.mem_map.mpr ⟨(own ++ later, final), ?_, rfl⟩
        refine (mem_reach_iff (hvalue.valueAt hrun)).mpr ⟨own, middle, later, hown, ?_, rfl⟩
        exact (ih ((hvalue.valueAt hrun).valueAt hmiddle)
          (Value.target_of_valueAt? hmiddle)).mpr hlater

/-! ## No place is reached twice -/

/-- Segments reach no place twice if what is visited from where they lead is not
visited twice. -/
theorem nodup_reach {arrive : Value → Trace} {segments : List Segment} {value : Value}
    (hvalue : value.WellFormed)
    (hdistinct : ∀ entries, .union entries ∈ segments → (entries.map Selection.keyOf).Nodup)
    (harrive : ∀ middle : Value, middle.WellFormed → ((arrive middle).map Prod.fst).Nodup) :
    ((reach arrive segments value).map Prod.fst).Nodup := by
  induction segments generalizing value with
  | nil => exact harrive value.target hvalue.target
  | cons segment rest ih =>
    have hrest {child : Value} (hchild : child.WellFormed) :
        ((reach arrive rest child).map Prod.fst).Nodup :=
      ih hchild fun entries hmem => hdistinct entries (List.mem_cons_of_mem _ hmem)
    by_cases hsegment : segment = .root
    · subst hsegment
      exact hrest hvalue
    · rw [reach_segment hsegment]
      refine Location.nodup_flatMap_below (fun step => [step]) ?_ ?_ ?_
      · refine List.Nodup.map (fun _ _ h => (List.cons.inj h).1) ?_
        refine Segment.nodup_steps hvalue.target fun entries hunion => ?_
        exact hdistinct entries (hunion ▸ List.mem_cons_self)
      · intro step _
        cases hchild : value.target.child? step with
        | none => exact List.nodup_nil
        | some child => exact hrest (hvalue.target.child hchild)
      · intro one _ other _ first _ second _ hsame
        exact (List.append_inj hsame rfl).1

/-- All places that a group leads to are equally far from where it starts. -/
theorem length_of_mem_reach {segments : List Segment} {value : Value} (hvalue : value.WellFormed)
    {place : Location × Value} (hplace : place ∈ reach (found []) segments value) :
    place.1.length = (segments.filter (· != .root)).length := by
  rcases (mem_reach_iff hvalue).mp hplace with ⟨own, middle, later, hleads, hlater, hsame⟩
  rcases Prod.mk.inj (List.mem_singleton.mp hlater) with ⟨rfl, _⟩
  rw [hsame, List.append_nil]
  exact hleads.length_eq

/-- A single search, or none, finds no place twice. -/
theorem nodup_found {searches : List (List Segment)} {value : Value} (hvalue : value.WellFormed)
    (hsingle : searches.length ≤ 1)
    (hdistinct : ∀ group ∈ searches, ∀ entries, .union entries ∈ group →
      (entries.map Selection.keyOf).Nodup) :
    ((found searches value).map Prod.fst).Nodup := by
  cases searches with
  | nil => exact List.nodup_singleton _
  | cons group rest =>
    obtain rfl : rest = [] := by simpa using hsingle
    have hplace (place : Location × Value) (hmem : place ∈ value.places []) :
        place.2.WellFormed :=
      hvalue.valueAt ((Value.mem_places_iff hvalue).mp hmem)
    rw [found]
    refine Location.nodup_flatMap_below Prod.fst (Value.nodup_places hvalue) ?_ ?_
    · intro place hmem
      refine nodup_reach (hplace place hmem) (hdistinct group List.mem_cons_self) fun middle _ => ?_
      exact List.nodup_singleton _
    · intro one hone other hother first hfirst second hsecond hsame
      have hlengthOne := length_of_mem_reach (hplace one hone) hfirst
      have hlengthOther := length_of_mem_reach (hplace other hother) hsecond
      exact (List.append_inj' hsame (hlengthOne.trans hlengthOther.symm)).1

end Visit

/-! ## Visiting -/

namespace Value

/-- Visits the places that a path selects and collects them all, in order. -/
def visits (root : Value) (path : Path) : Progress (List (Location × Value)) :=
  root.forEach path (fun location value seen => .yield (seen ++ [(location, value)])) []

/-- The places that the path reaches from the root. -/
def reached (root : Value) (path : Path) : List (Location × Value) :=
  Visit.reach (Visit.found path.searches) path.first root

/-- A visitor that never ends the traversal sees the places reached, in order. -/
theorem collected_forEach {σ : Type} {root : Value} {path : Path}
    {f : σ → Location × Value → σ} {initial : σ}
    (hok : (root.forEach path (fun location value seen => .yield (f seen (location, value)))
      initial).outcome = .ok ()) :
    (root.forEach path (fun location value seen => .yield (f seen (location, value)))
      initial).collected = (root.reached path).foldl f initial := by
  have hsearch := Visit.search_traces f
    (fun location value seen => .yield (f seen (location, value)))
    (fun _ _ _ => rfl) .forEach path.searches
  rcases Visit.descend_traces hsearch .forEach false true path.first [] root initial with
    ⟨seen, error, hfailed⟩ | hrunning
  · rw [forEach, Visit.follow, hfailed] at hok
    cases hok
  · rw [forEach, Visit.follow, hrunning, Location.below_nil, List.map_id]
    rfl

/-- The places that a path reaches are those that it matches, with the values there. -/
theorem mem_reached_iff {root : Value} {path : Path} (hroot : root.WellFormed)
    {location : Location} {value : Value} :
    (location, value) ∈ root.reached path ↔
      path.Matches root location ∧ root.valueAt? location = some value := by
  rw [reached, Visit.mem_reach_iff hroot]
  constructor
  · rintro ⟨own, middle, later, hleads, hmem, rfl⟩
    have hmiddle := hleads.valueAt
    have htarget := target_of_valueAt? hmiddle
    have hlater := (Visit.mem_found_iff (hroot.valueAt hmiddle) htarget).mp hmem
    refine ⟨⟨own, later, middle, value, rfl, hleads, hlater⟩, ?_⟩
    rw [valueAt?_append, hmiddle, Option.bind_some, hlater.valueAt]
  · rintro ⟨⟨own, later, middle, final, rfl, hleads, hlater⟩, hvalue⟩
    have hmiddle := hleads.valueAt
    rw [valueAt?_append, hmiddle, Option.bind_some, hlater.valueAt] at hvalue
    rcases Option.some.inj hvalue with rfl
    refine ⟨own, middle, later, hleads, ?_, rfl⟩
    exact (Visit.mem_found_iff (hroot.valueAt hmiddle) (target_of_valueAt? hmiddle)).mpr hlater

/-- A path with at most one search and without unions that name a child twice reaches
no place twice. -/
theorem nodup_reached {root : Value} {path : Path} (hroot : root.WellFormed)
    (hsingle : path.searches.length ≤ 1) (hdistinct : path.UnionsDistinct) :
    ((root.reached path).map Prod.fst).Nodup := by
  have hgroup (group : List Segment) (hmem : group ∈ path.groups) (entries : List Selector)
      (hunion : .union entries ∈ group) : (entries.map Selection.keyOf).Nodup :=
    hdistinct entries (List.mem_flatten.mpr ⟨group, hmem, hunion⟩)
  refine Visit.nodup_reach hroot (hgroup path.first List.mem_cons_self) fun middle hmiddle => ?_
  refine Visit.nodup_found hmiddle hsingle fun group hmem => ?_
  exact hgroup group (List.mem_cons_of_mem _ hmem)

theorem collected_visits {root : Value} {path : Path}
    (hok : (root.visits path).outcome = .ok ()) :
    (root.visits path).collected = root.reached path := by
  have hfold := collected_forEach (f := fun seen place => seen ++ [place]) hok
  rw [visits, hfold, List.foldl_append_eq_append]
  exact List.flatMap_singleton' _

/-- A traversal that is neither ended by the visitor nor by a fault visits exactly the
places that the path matches, with the values there at the end of their references.
Unless the path has several searches or a union that names a child twice, it visits each
of them once. -/
theorem visits_exactly_matches {root : Value} {path : Path} (hroot : root.WellFormed)
    (hok : (root.visits path).outcome = .ok ()) :
    (∀ location value, (location, value) ∈ (root.visits path).collected ↔
      path.Matches root location ∧ root.valueAt? location = some value) ∧
    (path.searches.length ≤ 1 → path.UnionsDistinct →
      ((root.visits path).collected.map Prod.fst).Nodup) := by
  rw [collected_visits hok]
  exact ⟨fun _ _ => mem_reached_iff hroot, nodup_reached hroot⟩

/-- A search below a name visits what it matches inside a list, behind a reference too. -/
theorem visits_names_below :
    let root : Value := .map [("a", .ofItems #[.map [("b", .int 1)], .ref (.map [("b", .null)])])]
    let path : Path := { first := [.root, .key "a"], searches := [[.key "b"]] }
    (root.visits path).outcome = .ok () ∧
      path.Matches root [.key "a", .index 1, .key "b"] ∧
      ((root.visits path).collected.map Prod.fst).Nodup := by
  intro root path
  have hroot : root.WellFormed := by
    simp [root, ofItems, Sequence.growable, Entries.keys]
  have hok : (root.visits path).outcome = .ok () := by
    cbv
  have hvisits : (root.visits path).collected =
      [([.key "a", .index 0, .key "b"], .int 1), ([.key "a", .index 1, .key "b"], .null)] := by
    cbv
  rcases visits_exactly_matches hroot hok with ⟨hmatches, hnodup⟩
  refine ⟨hok, ((hmatches _ .null).mp ?_).1, hnodup (by decide) ?_⟩
  · simp [hvisits]
  · simp [Path.UnionsDistinct, Path.segments, Path.groups, path]

end Value

end NestedData
