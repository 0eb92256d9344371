import Mathlib
import NestedData.Proofs.Access.Assigning
import NestedData.Proofs.Path.Canonical
import NestedData.Schema.Shaping

/-!
# Assigning to one place

This module follows an assignment along a path that selects one child at a time and has no
search.  Room is made on the way in whatever shapes are asked for, so what is passed may be
new.  When the assignment succeeds, the path leads to one place, where the value is found
again, and data elsewhere are what they were.

Main results:

- `Action.descend_assign_single`: an assignment on its only way assigns along the group.
- `Value.setAt_getAt`: what has been assigned is what the path gets, and data that are
  neither at the place nor below it are kept.
-/

namespace NestedData

/-- A value with places inside it is not absent. -/
theorem Visit.Reaches.isAbsent_eq_false {segments : List Segment} {value : Value}
    {location : Location} (hsegments : segments ≠ []) (hroot : .root ∉ segments)
    (hreaches : Visit.Reaches segments value location) : value.isAbsent = false := by
  have hlocation : location ≠ [] := by
    rintro rfl
    exact hsegments (List.length_eq_zero_iff.mp (hreaches.length_eq hroot).symm)
  obtain ⟨step, later, rfl⟩ := List.exists_cons_of_ne_nil hlocation
  have hthere := hreaches.isSome_valueAt?
  cases value <;> first | rfl | simp [Value.valueAt?, Value.target, Value.child?] at hthere

namespace Action

open Value

variable {shaping : Shaping} {segments : List Segment} {new value : Value} {tally : Tally}

/-! ## The only way -/

/-- An assignment on its only way assigns along the group, once. -/
theorem descend_assign_single (hroot : .root ∉ segments)
    (hsingle : ∀ segment ∈ segments, segment.isMultiValued = false) {location : Location}
    (hok : (descend (assign shaping new) none false true true segments location value).result =
      .ok tally) :
    Assigned true segments new value
        (descend (assign shaping new) none false true true segments location value).value ∧
      tally = .one := by
  induction segments generalizing value location tally with
  | nil => exact ⟨assigned_nil true value new, (Except.ok.inj hok).symm⟩
  | cons segment rest ih =>
    have hsegment : segment ≠ .root := fun hsame => hroot (hsame ▸ List.mem_cons_self)
    have hrest : .root ∉ rest := fun hmem => hroot (List.mem_cons_of_mem _ hmem)
    have hone : segment.isMultiValued = false := hsingle segment List.mem_cons_self
    have hsingle : ∀ other ∈ rest, other.isMultiValued = false :=
      fun other hother => hsingle other (List.mem_cons_of_mem _ hother)
    rw [descend_assign_segment hsegment, Edit.atTarget_eq] at hok ⊢
    generalize hcontainer : (vivify shaping location segment value).target = container at hok ⊢
    cases hselect : Selection.select
        { operation := .set, location, strict := true, create := true, searching := false }
        container segment with
    | error error =>
      simp only [hselect] at hok
      cases hok
    | ok steps =>
      simp only [hselect, hone, Bool.not_false, Bool.and_true] at hok ⊢
      obtain ⟨step, rfl, htakes⟩ :=
        Selection.exists_takes_of_single rfl rfl hsegment hone hselect
      obtain ⟨done, hdone, hsequence⟩ := Edit.sequence_cons_ok hok
      rw [hsequence, Edit.sequence_nil] at hok ⊢
      -- Something is left of the child, since the rest of the group leads somewhere in it.
      have hleft (old : Value) (hsegments : rest ≠ [])
          (hinner : (descend (assign shaping new) none false true true rest (location.child step)
            old).result = .ok done) :
          (descend (assign shaping new) none false true true rest (location.child step)
            old).value.isAbsent = false := by
        obtain ⟨reached, final, hends⟩ :=
          Visit.exists_ends_of_single hsingle (ih hrest hsingle hinner).1.readable
        have hreaches : Visit.Reaches rest _ reached := ⟨final, hends ▸ List.mem_singleton_self _⟩
        exact hreaches.isAbsent_eq_false hsegments hrest
      obtain ⟨old, hold, hinner, hvalue⟩ := assignChild_ok htakes (.inl rfl)
        (fun old hsegments _ => hleft old hsegments) hdone
      obtain ⟨hassigned, rfl⟩ := ih hrest hsingle hinner
      have hreworked := reworked_put htakes hold hassigned
      rw [hvalue]
      constructor
      · refine assigned_of_vivify (List.cons_ne_nil _ _) hroot ?_
        rw [hcontainer]
        refine assigned_of_reworked hsegment (by rw [← hcontainer, target_target]) rfl rfl rfl
          (Segment.steadyOn_of_single hone container) hselect ?_
        rwa [hone]
      · exact (Except.ok.inj hok).symm.trans (Tally.empty_add _)

end Action

/-! ## Whole paths -/

namespace Value

variable {root new after : Value} {path : Path} {shaping : Shaping} {count : Nat}

/-- An assignment without a search follows the segments of the path from the root. -/
theorem setAt_eq_ok {segments : List Segment} (hsearches : path.searches = [])
    (hsegments : path.first = segments ∨ path.first = .root :: segments)
    (hset : root.setAt path new shaping = (after, .ok count)) :
    ∃ tally, Action.descend (Action.assign shaping new) none false true true segments [] root =
      { value := after, result := .ok tally } ∧ tally.count = count := by
  rw [setAt, Action.run, hsearches] at hset
  simp only [Action.search, Action.descend_of_first hsegments] at hset
  generalize Action.descend (Action.assign shaping new) none false true true segments [] root =
    edit at hset ⊢
  rcases edit with ⟨value, error | tally⟩
  · cases hset
  · simp only at hset
    split at hset
    · cases hset
      exact ⟨tally, rfl, rfl⟩
    · cases hset

/-- Where the segments of a path without a search meet no fault, following the path visits
the places that they lead to. -/
theorem follow_of_readable {σ : Type} {segments : List Segment} (visit : Visitor σ)
    {f : σ → Location × Value → σ} (hsearches : path.searches = [])
    (hsegments : path.first = segments ∨ path.first = .root :: segments)
    (hvisit : ∀ location value collected,
      visit location value collected = .yield (f collected (location, value)))
    (hreadable : Visit.Readable true segments root) (operation : Operation) (collected : σ) :
    Visit.follow operation path visit root collected =
      .running ((Visit.ends segments root).foldl f collected) := by
  have hdescend : Visit.follow operation path visit root collected =
      Visit.descend operation (Visit.search operation visit []) false true segments [] root
        collected := by
    rw [Visit.follow, hsearches, Visit.descend_of_first hsegments]
  have harrive (location : Location) (value : Value) (collected : σ) :
      Visit.search operation visit [] location value collected =
        .running (f collected (location, value)) := by
    simp [Visit.search, hvisit]
  rw [hdescend, Visit.descend_of_readable harrive operation hreadable, Location.below_nil,
    List.map_id]

/-- An assignment along a path that a text spells, without a search and with segments that
select one child at a time, in whatever shapes room is made: if it succeeds it counts one
change, the path gets what was assigned, and a datum that is neither at the place that the
path leads to nor below it is where it was. -/
theorem setAt_getAt {text : String} (hparse : Path.parse text = .ok path)
    (hpath : path.isMultiValued = false)
    (hset : root.setAt path new shaping = (after, .ok count)) :
    count = 1 ∧ after.getAt path = .ok new.target ∧
      ∃ place, after.visits path = .running [(place, new.target)] ∧
        ∀ location datum, root.valueAt? location = some datum → datum.kind.isScalar = true →
          ¬place <+: location → after.valueAt? location = some datum := by
  obtain ⟨hsearches, hsegments⟩ := Path.searches_eq_nil hpath
  obtain ⟨segments, hroot, hmem, hfirst⟩ := Path.exists_segments (Path.isCanonical_of_parse hparse)
  have hsingle (segment : Segment) (hsegment : segment ∈ segments) :
      segment.isMultiValued = false :=
    hsegments segment (hmem segment hsegment)
  obtain ⟨tally, hdescend, hcount⟩ := setAt_eq_ok hsearches hfirst hset
  obtain ⟨hassigned, htally⟩ := Action.descend_assign_single hroot hsingle
    (by rw [hdescend] : (Action.descend _ none false true true segments [] root).result = .ok tally)
  rw [hdescend] at hassigned
  have hreadable := hassigned.readable
  obtain ⟨place, final, hends⟩ := Visit.exists_ends_of_single hsingle hreadable
  have hfinal : final = new.target := hassigned.reads (place, final) (by simp [hends])
  refine ⟨by rw [← hcount, htally]; rfl, ?_, place, ?_, ?_⟩
  · have hget := follow_of_readable (fun _ value found => .yield (found.push value))
      (f := fun found place => found.push place.2) hsearches hfirst (fun _ _ _ => rfl) hreadable
      .get #[]
    rw [getAt, hget, hends, hfinal]
    simp [hpath]
  · have hvisits := follow_of_readable
      (fun location value seen => .yield (seen ++ [(location, value)]))
      (f := fun seen place => seen ++ [place]) hsearches hfirst (fun _ _ _ => rfl) hreadable
      .forEach []
    rw [visits, forEach, hvisits, hends, hfinal]
    rfl
  · intro location datum hdatum hscalar hapart
    refine (hassigned.kept location datum hdatum hscalar).resolve_right ?_
    rintro ⟨above, ⟨value, habove⟩, hbegins⟩
    rw [hends, List.mem_singleton] at habove
    exact hapart ((Prod.mk.inj habove).1 ▸ hbegins)

/-- An element is set in a list that the schema makes behind a reference and pads. -/
theorem setAt_getAt_shaped :
    let team : Schema := .single {
      shape := .record
      typeName := some "Team"
      children := [("size", .single { shape := .int }),
        ("marks", .single { shape := .list (some (.single { shape := .int })) })] }
    let schema : Schema := .single {
      shape := .map (some (.single { shape := .string }, .single { shape := .any }))
      children := [("team", .single { shape := .ref (some team) })] }
    let root : Value := .map [("kept", .int 5), ("team", .nilRef)]
    let path : Path := { first := [.root, .key "team", .key "marks", .index 1] }
    let after : Value := .map [("kept", .int 5),
      ("team", .ref (.record { name := "Team", fields := [
        { name := "size", value := .int 0 },
        { name := "marks", value := .ofItems #[.int 0, .ref (.int 9)] }] }))]
    Path.parse "$.team.marks[1]" = .ok path ∧
      root.setAt path (.ref (.int 9)) schema.shaping = (after, .ok 1) ∧
      after.getAt path = .ok (.int 9) ∧ after.valueAt? [.key "kept"] = some (.int 5) := by
  intro team schema root path after
  have hparse : Path.parse "$.team.marks[1]" = .ok path := by
    cbv
  have hset : root.setAt path (.ref (.int 9)) schema.shaping = (after, .ok 1) := by
    simp only [team, schema, root, path, after]
    cbv
  have hvisits : after.visits path =
      .running [([.key "team", .key "marks", .index 1], .int 9)] := by
    cbv
  obtain ⟨_, hget, place, hplace, hkept⟩ := setAt_getAt hparse (by decide) hset
  rw [hvisits] at hplace
  cases hplace
  exact ⟨hparse, hset, hget, hkept [.key "kept"] (.int 5) rfl rfl (by simp)⟩

end Value

end NestedData
